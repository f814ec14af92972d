import CallByNeed.Proofs.Dangling.Actions
import CallByNeed.Proofs.Termination.Measure

/-!
# Actions that come to an end

The evaluators of more and more fuel are a family, and so are the actions that a
rule makes of them.  Such a family comes to an end in a session
(`Session.EndsAt`) if all of them from some one on do the same there, which is
not to run out of fuel.  We ask for safety and steadiness besides, so that what
follows may rely on the session that was left (`Session.Proceeds`).
-/

namespace CallByNeed.Session

variable {α β : Type} {s t u : Session} {P Q : Session → α → Prop} {R : Session → β → Prop}

/-! ## Sessions later on -/

/-- The session comes after a safe action that left the stack as it was. -/
structure Proceeds (s t : Session) : Prop where
  onward : s.Onward t
  steady : s.Steady t

namespace Proceeds

theorem safe (h : s.Proceeds t) : t.Safe := h.onward.safe

theorem refl (hs : s.Safe) : s.Proceeds s := ⟨.refl hs, .refl s⟩

theorem trans (h₁ : s.Proceeds t) (h₂ : t.Proceeds u) : s.Proceeds u :=
  ⟨h₁.onward.trans h₂.onward, h₁.steady.trans h₂.steady⟩

theorem live (h : s.Proceeds t) {id : EnvId} (hid : s.heap.contains id = true) :
    t.heap.contains id = true :=
  h.onward.live hid

theorem admits (h : s.Proceeds t) {v : Value} (hv : s.Admits v) : t.Admits v := h.onward.admits hv

theorem args (h : s.Proceeds t) {args : ArgList} (hargs : s.AdmitsArgs args) : t.AdmitsArgs args :=
  h.onward.args hargs

theorem meets (h : s.Proceeds t) {b : Budget} (hs : s.Meets b) : t.Meets b :=
  hs.later h.onward h.steady

theorem rank (h : s.Proceeds t) (env : EnvId) : t.rank env = s.rank env := by
  rw [Session.rank, h.steady.stack, Session.rank]

theorem within (h : s.Proceeds t) {b : Budget} {env : EnvId} (henv : s.Within b env) :
    t.Within b env :=
  ⟨h.live henv.live, (h.rank env).trans_le henv.rank⟩

end Proceeds

/-! ## Families of actions -/

/-- How an action ended that was begun in the first session: safely, and with fuel to spare. -/
structure EndedBy (s : Session) (P : Session → α → Prop) (outcome : Except Interrupt α)
    (t : Session) : Prop where
  proceeds : s.Proceeds t
  value : ∀ a, outcome = .ok a → P t a
  raises : ∀ e, outcome = .error e → t.Lets e ∧ e ≠ .exhausted

/-- Begun in this session, all the actions of the family from some one on come to the same end. -/
def EndsAt (s : Session) (x : Nat → SessionM α) (P : Session → α → Prop) : Prop :=
  ∃ outcome t, (∃ least, ∀ n, least ≤ n → x n s = (outcome, t)) ∧ s.EndedBy P outcome t

namespace EndsAt

variable {x : Nat → SessionM α}

theorem of_ok {a : α} (h : ∃ least, ∀ n, least ≤ n → x n s = (.ok a, t)) (ht : s.Proceeds t)
    (ha : P t a) : EndsAt s x P :=
  ⟨.ok a, t, h, ht, fun _ h => by cases h; exact ha, fun _ h => nomatch h⟩

theorem of_error {e : Interrupt} (h : ∃ least, ∀ n, least ≤ n → x n s = (.error e, t))
    (ht : s.Proceeds t) (he : t.Lets e) (hends : e ≠ .exhausted) : EndsAt s x P :=
  ⟨.error e, t, h, ht, fun _ h => (nomatch h), fun _ h => by cases h; exact ⟨he, hends⟩⟩

/-- The same action for every fuel. -/
theorem still {act : SessionM α} (hsafe : SafeAt s act P) (hsteady : s.Steady (act s).2)
    (hends : (act s).1 ≠ .error .exhausted) : EndsAt s (fun _ => act) P :=
  ⟨(act s).1, (act s).2, ⟨0, fun _ _ => rfl⟩, ⟨hsafe.onward, hsteady⟩, hsafe.value,
    fun e he => ⟨hsafe.raises e he, fun h => hends (h ▸ he)⟩⟩

/-- An action that evaluates nothing. -/
theorem plain {act : SessionM α} (hsafe : SafeAt s act P) (hkeeps : Contract.steady.Keeps act)
    (honly : act.OnlyFails) : EndsAt s (fun _ => act) P :=
  still hsafe (hkeeps s trivial).rel (honly.ne_exhausted s)

theorem pure (hs : s.Safe) {a : α} (ha : P s a) : EndsAt s (fun _ => Pure.pure a) P :=
  plain (.pure hs ha) (Contract.keeps_pure a) (SessionM.onlyFails_pure a)

theorem fail (hs : s.Safe) {e : EvalError} (he : e.isStale = false) :
    EndsAt s (fun _ => (SessionM.fail e : SessionM α)) P :=
  of_error ⟨0, fun _ _ => rfl⟩ (.refl hs) he nofun

theorem reads {P : α → Prop} {act : SessionM α} (hs : s.Safe) (h : Reads s act P) :
    EndsAt s (fun _ => act) fun t a => s = t ∧ P a := by
  obtain ⟨a, ha, hPa⟩ | ⟨e, he, hstale⟩ := h
  · exact of_ok ⟨0, fun _ _ => ha⟩ (.refl hs) ⟨rfl, hPa⟩
  · exact of_error ⟨0, fun _ _ => he⟩ (.refl hs) hstale nofun

theorem weaken (h : EndsAt s x P) (hPQ : ∀ a t, s.Proceeds t → P t a → Q t a) : EndsAt s x Q := by
  obtain ⟨outcome, t, hrun, hproceeds, hvalue, hraises⟩ := h
  exact ⟨outcome, t, hrun, hproceeds, fun a ha => hPQ a t hproceeds (hvalue a ha), hraises⟩

/-- A family may begin anywhere. -/
theorem of_succ (h : EndsAt s (fun n => x (n + 1)) P) : EndsAt s x P := by
  obtain ⟨outcome, t, ⟨least, hrun⟩, hended⟩ := h
  refine ⟨outcome, t, ⟨least + 1, fun n hn => ?_⟩, hended⟩
  obtain ⟨n, rfl⟩ : ∃ m, n = m + 1 := ⟨n - 1, by omega⟩
  exact hrun n (by omega)

theorem congr {y : Nat → SessionM α} (h : EndsAt s x P) (hxy : ∀ n, y n s = x n s) :
    EndsAt s y P := by
  obtain ⟨outcome, t, ⟨least, hrun⟩, hended⟩ := h
  exact ⟨outcome, t, ⟨least, fun n hn => (hxy n).trans (hrun n hn)⟩, hended⟩

/-- What follows begins in the session that was left, once there is fuel enough to get there. -/
theorem bind {f : Nat → α → SessionM β} (hx : EndsAt s x P)
    (hf : ∀ a t, s.Proceeds t → P t a → EndsAt t (fun n => f n a) R) :
    EndsAt s (fun n => x n >>= f n) R := by
  obtain ⟨e | a, t, ⟨least, hrun⟩, hproceeds, hvalue, hraises⟩ := hx
  · obtain ⟨he, hends⟩ := hraises e rfl
    exact of_error ⟨least, fun n hn => SessionM.bind_run_error (hrun n hn) _⟩ hproceeds he hends
  · obtain ⟨outcome, u, ⟨least', hrun'⟩, hproceeds', hvalue', hraises'⟩ :=
      hf a t hproceeds (hvalue a rfl)
    refine ⟨outcome, u, ⟨max least least', fun n hn => ?_⟩, hproceeds.trans hproceeds', hvalue',
      hraises'⟩
    exact (SessionM.bind_run_ok (hrun n (by omega)) _).trans (hrun' n (by omega))

/-- What follows a look begins in the same session. -/
theorem andThen {P : α → Prop} {act : SessionM α} {f : Nat → α → SessionM β} (hs : s.Safe)
    (hact : Reads s act P) (hf : ∀ a, P a → EndsAt s (fun n => f n a) R) :
    EndsAt s (fun n => act >>= f n) R :=
  (reads hs hact).bind fun a t _ ⟨hsame, ha⟩ => by
    subst hsame
    exact hf a ha

theorem ite {p : Prop} [Decidable p] {y : Nat → SessionM α} (hx : p → EndsAt s x P)
    (hy : ¬ p → EndsAt s y P) : EndsAt s (fun n => if p then x n else y n) P := by
  split
  · rename_i hp
    exact hx hp
  · rename_i hp
    exact hy hp

/-- The session of each item is one that the list began from. -/
theorem forM {f : Nat → β → SessionM PUnit} {items : List β} (hs : s.Safe)
    (h : ∀ b ∈ items, ∀ t, s.Proceeds t → EndsAt t (fun n => f n b) fun _ _ => True) :
    EndsAt s (fun n => items.forM (f n)) fun _ _ => True := by
  induction items generalizing s with
  | nil => exact pure hs trivial
  | cons b rest ih =>
    refine (h b List.mem_cons_self s (.refl hs)).bind fun _ t ht _ => ?_
    exact ih ht.safe fun c hc u hu => h c (.tail _ hc) u (ht.trans hu)

theorem mapM {f : Nat → β → SessionM α} {items : List β} (hs : s.Safe)
    (hmono : ∀ {t u a}, Proceeds t u → P t a → P u a)
    (h : ∀ b ∈ items, ∀ t, s.Proceeds t → EndsAt t (fun n => f n b) P) :
    EndsAt s (fun n => items.mapM (f n)) fun t as => ∀ a ∈ as, P t a := by
  induction items generalizing s with
  | nil => exact pure hs fun _ ha => nomatch ha
  | cons b rest ih =>
    simp only [List.mapM_cons]
    refine (h b List.mem_cons_self s (.refl hs)).bind fun a t ht ha => ?_
    have hrest := ih ht.safe fun c hc u hu => h c (.tail _ hc) u (ht.trans hu)
    -- what was said of the first value lasts while the rest is computed
    refine hrest.bind fun as u hu has => pure hu.safe fun c hc => ?_
    obtain rfl | hc := List.mem_cons.1 hc
    · exact hmono hu ha
    · exact has c hc

/-- An error or a return is dropped. -/
theorem attempt (hx : EndsAt s x P) :
    EndsAt s (fun n => SessionM.attempt (x n)) fun t found => ∀ a ∈ found, P t a := by
  obtain ⟨(error | ⟨target, value⟩ | _) | a, t, ⟨least, hrun⟩, hproceeds, hvalue, hraises⟩ := hx
  · exact of_ok (a := none) ⟨least, fun n hn => by simp only [SessionM.attempt, hrun n hn]⟩
      hproceeds fun _ ha => nomatch ha
  · exact of_ok (a := none) ⟨least, fun n hn => by simp only [SessionM.attempt, hrun n hn]⟩
      hproceeds fun _ ha => nomatch ha
  · exact absurd rfl (hraises _ rfl).2
  · refine of_ok ⟨least, fun n hn => SessionM.attempt_run_ok (hrun n hn)⟩ hproceeds
      fun b hb => ?_
    cases hb
    exact hvalue a rfl

/-! ## Promises and invocations -/

/-- The mark of a promise that waits is taken back when its evaluation has come to an end. -/
theorem demand {ev : Nat → Evaluator} (hs : s.Safe) {id : PromiseId} {expr : Value} {env : EnvId}
    (hp : s.promises.get? id = some ⟨expr, .waiting env false⟩)
    (hx : EndsAt (s.mark id true) (fun n => (ev n).evaluate expr env) Admits) :
    EndsAt s (fun n => (ev n).demand id) Admits := by
  -- the promise is marked, evaluated and unmarked, whatever comes of the evaluation
  have hmark := hs.onward_mark id true
  obtain ⟨e | value, t, ⟨least, hrun⟩, hproceeds, hvalue, hraises⟩ := hx <;>
    dsimp only at hrun
  · have hunmark := hproceeds.safe.onward_mark id false
    have hsteady : s.Steady (t.mark id false) :=
      (((Steady.refl s).update _ hp).trans hproceeds.steady).update _ hp
    obtain ⟨hlets, hends⟩ := hraises e rfl
    refine of_error (e := e) ⟨least, fun n hn => ?_⟩
      ⟨(hmark.trans hproceeds.onward).trans hunmark, hsteady⟩ (hunmark.lets hlets) hends
    rw [(ev n).demand_run_waiting hp, hrun n hn]
  · have hunmark := hproceeds.safe.onward_mark id false
    have hadmits := hunmark.admits (hvalue value rfl)
    have hkeep := hunmark.safe.onward_keep id hadmits
    have hsteady : s.Steady ((t.mark id false).keep id value) :=
      ((((Steady.refl s).update _ hp).trans hproceeds.steady).update _ hp).update _ hp
    refine of_ok ⟨least, fun n hn => ?_⟩
      ⟨((hmark.trans hproceeds.onward).trans hunmark).trans hkeep, hsteady⟩ (hkeep.admits hadmits)
    rw [(ev n).demand_run_waiting hp, hrun n hn]

/-- An invocation comes to an end if what it runs does, or it is refused. -/
theorem withInvocation {x : Nat → SessionM Value} (hs : s.Safe) {i : Invocation}
    (hi : s.AdmitsInvocation i)
    (hx : s.depth < s.options.maxCallDepth → EndsAt (s.enter i) x Admits) :
    EndsAt s (fun n => SessionM.withInvocation i (x n)) Admits := by
  by_cases hroom : s.depth < s.options.maxCallDepth
  · obtain ⟨outcome, t, ⟨least, hrun⟩, ⟨honward, hsteady⟩, hvalue, hraises⟩ := hx hroom
    have hleave := honward.safe.onward_leave
    refine ⟨outcome, t.leave, ⟨least, fun n hn => ?_⟩,
      ⟨((hs.onward_enter hi).trans honward).trans hleave, congrArg List.tail hsteady.stack,
        hsteady.options, hsteady.size, hsteady.idle⟩,
      fun a ha => hleave.admits (hvalue a ha), fun e he => ?_⟩
    · exact (SessionM.withInvocation_run i (x n) hroom).trans (by rw [hrun n hn])
    · obtain ⟨hlets, hends⟩ := hraises e he
      exact ⟨hleave.lets hlets, hends⟩
  · have hfull : s.options.maxCallDepth ≤ s.depth := by omega
    exact of_error ⟨0, fun n _ => SessionM.withInvocation_run_full i (x n) hfull⟩ (.refl hs) rfl
      nofun

theorem catchReturn {x : Nat → SessionM Value} (hx : EndsAt s x Admits) (env : EnvId) :
    EndsAt s (fun n => SessionM.catchReturn env (x n)) Admits := by
  obtain ⟨outcome, t, ⟨least, hrun⟩, hproceeds, hvalue, hraises⟩ := hx
  by_cases hcaught : ∃ value, outcome = .error (.returning env value)
  · obtain ⟨value, rfl⟩ := hcaught
    exact of_ok ⟨least, fun n hn => SessionM.catchReturn_run_caught (hrun n hn)⟩ hproceeds
      (hraises _ rfl).1
  · exact ⟨outcome, t, ⟨least, fun n hn => SessionM.catchReturn_run_passed (hrun n hn)
      fun value he => hcaught ⟨value, he⟩⟩, hproceeds, hvalue, hraises⟩

end EndsAt

/-! ## Actions that evaluate nothing -/

section

variable (hs : s.Safe) {env : EnvId} {v : Value} {args : ArgList} {call : Call}
include hs

theorem ends_newBare (elements : Elements) :
    EndsAt s (fun _ => SessionM.newVector elements .empty) Admits :=
  .plain (safe_newBare hs _) (Contract.keeps_newVector _ _) (SessionM.onlyFails_newVector _ _)

theorem ends_bindIn (henv : s.heap.contains env = true) (name : Symbol) (hv : s.Admits v) :
    EndsAt s (fun _ => SessionM.bindIn env name v) fun _ _ => True :=
  .plain (safe_bindIn hs henv name hv) (Contract.keeps_bindIn _ _ _)
    (SessionM.onlyFails_bindIn _ _ _)

theorem ends_deliver {r : Except EvalError Answer} (hplain : Plain r)
    (h : Yields s.AdmitsAnswer r) : EndsAt s (fun _ => SessionM.deliver r) Admits :=
  .plain (safe_deliver hs hplain h) (Contract.keeps_deliver hplain) (SessionM.onlyFails_deliver _)

theorem ends_classesValue (classes : List String) :
    EndsAt s (fun _ => Evaluator.classesValue classes) Admits :=
  .ite (fun _ => .pure hs admits_null) fun _ => ends_newBare hs _

theorem ends_missingForm (hargs : s.AdmitsArgs call.args) (henv : s.heap.contains env = true) :
    EndsAt s (fun _ => SessionM.missingForm call env) Admits := by
  refine .andThen hs (reads_oneArg hargs .missing) fun arg _ => ?_
  cases arg.nameText? with
  | some name => exact .andThen hs (reads_isMissing hs henv _) fun _ _ => ends_newBare hs _
  | none => exact .fail hs rfl

theorem ends_namespaceOf (v : Value) :
    EndsAt s (fun _ => SessionM.namespaceOf v) fun _ _ => True :=
  .plain (safe_namespaceOf hs v) (Contract.keeps_namespaceOf _) (SessionM.onlyFails_namespaceOf _)

end

end CallByNeed.Session
