import CallByNeed.Proofs.Reachable

/-!
# Every exit tears down what it set up

However an evaluation ends, with a value, an error or a return on its way to an
outer invocation, the stack of invocations is the one from before and so are the
marks of the promises under evaluation.  On the way there are never more
invocations than the session allows, and an overflow is reported at that depth
only.  All of this is one contract (`Contract.teardown`).
-/

namespace CallByNeed

/-! ## Marks -/

namespace PromiseStore

def isMarked (store : PromiseStore) (id : PromiseId) : Bool := (store.get? id).any Promise.isMarked

theorem isMarked_add (store : PromiseStore) {p : Promise} (h : p.isMarked = false)
    (id : PromiseId) : (store.add p).2.isMarked id = store.isMarked id := by
  by_cases hid : id.index < store.cells.size
  · simp [isMarked, add, get?, Array.getElem?_push, Nat.ne_of_lt hid]
  · by_cases heq : id.index = store.cells.size
    · simp [isMarked, add, get?, heq, h]
    · simp [isMarked, add, get?, Array.getElem?_push, heq]

theorem isMarked_update_of_ne {store : PromiseStore} {id other : PromiseId}
    (f : Promise → Promise) (h : other ≠ id) :
    (store.update id f).isMarked other = store.isMarked other := by
  rw [isMarked, get?_update_of_ne f h, isMarked]

theorem isMarked_update_self (store : PromiseStore) (id : PromiseId) {f : Promise → Promise}
    (h : ∀ p, (f p).isMarked = false) : (store.update id f).isMarked id = false := by
  simp only [isMarked, update, get?, Array.getElem?_modify, if_pos]
  cases store.cells[id.index]? with
  | none => rfl
  | some p => exact h p

end PromiseStore

theorem Promise.isMarked_mark_false (p : Promise) : (p.mark false).isMarked = false := by
  obtain ⟨expr, state⟩ := p
  cases state <;> rfl

/-! ## The contract -/

namespace Session

/-- The stack, the options and the marks of both sessions are the same. -/
structure SameStanding (s t : Session) : Prop where
  stack : t.stack = s.stack
  options : t.options = s.options
  marks : ∀ id, t.promises.isMarked id = s.promises.isMarked id

namespace SameStanding

variable {s t u : Session}

theorem refl (s : Session) : SameStanding s s := ⟨rfl, rfl, fun _ => rfl⟩

theorem trans (h₁ : SameStanding s t) (h₂ : SameStanding t u) : SameStanding s u :=
  ⟨h₂.stack.trans h₁.stack, h₂.options.trans h₁.options,
    fun id => (h₂.marks id).trans (h₁.marks id)⟩

theorem depth (h : SameStanding s t) : t.depth = s.depth := by
  rw [Session.depth, h.stack, Session.depth]

theorem of_move (h : s.Move t) : SameStanding s t := by
  cases h with
  | promise p unmarked => exact ⟨rfl, rfl, s.promises.isMarked_add unmarked⟩
  | _ => exact ⟨rfl, rfl, fun _ => rfl⟩

/-- A promise that was marked and is changed to be unmarked is as it was before it was marked. -/
theorem of_marked {id : PromiseId} {expr : Value} {env : EnvId} {f : Promise → Promise}
    (hp : s.promises.get? id = some ⟨expr, .waiting env false⟩)
    (h : SameStanding (s.mark id true) t) (hf : ∀ p, (f p).isMarked = false) :
    SameStanding s { t with promises := t.promises.update id f } := by
  refine ⟨h.stack, h.options, fun other => ?_⟩
  -- the promise itself was unmarked before and is so again; the others are as the evaluation
  -- left them
  by_cases hother : other = id
  · subst hother
    have hbefore : s.promises.isMarked other = false := by
      rw [PromiseStore.isMarked, hp]
      rfl
    rw [hbefore]
    exact t.promises.isMarked_update_self other hf
  · have hmark : (s.mark id true).promises.isMarked other = s.promises.isMarked other :=
      PromiseStore.isMarked_update_of_ne _ hother
    have hafter : (t.promises.update id f).isMarked other = t.promises.isMarked other :=
      PromiseStore.isMarked_update_of_ne _ hother
    rw [hafter, h.marks other, hmark]

theorem of_kept (s : Session) (id : PromiseId) (value : Value) :
    SameStanding (s.mark id false) ((s.mark id false).keep id value) := by
  refine ⟨rfl, rfl, fun other => ?_⟩
  by_cases hother : other = id
  · subst hother
    have hbefore : (s.mark other false).promises.isMarked other = false :=
      s.promises.isMarked_update_self other Promise.isMarked_mark_false
    rw [hbefore]
    exact PromiseStore.isMarked_update_self _ other fun _ => rfl
  · exact PromiseStore.isMarked_update_of_ne _ hother

end SameStanding

end Session

/-- At most `most` invocations are active, every action leaves the stack and the marks as they were,
    and an overflow is reported at depth `most` only. -/
def Contract.teardown (most : Nat) : Contract where
  inv s := s.options.maxCallDepth = most ∧ s.depth ≤ most
  rel := Session.SameStanding
  raises _ e := ∀ depth, e = .failure (.stackOverflow depth) → depth = most
  lenient := False
  refl := .refl
  trans := .trans
  inv_of_rel hinv hrel := ⟨hrel.options ▸ hinv.1, hrel.depth ▸ hinv.2⟩
  raises_of_rel _ _ hraises := hraises
  move _ hmove := .of_move hmove
  raises_failure _ he depth heq := by
    cases heq
    cases he
  raises_overflow hinv hfull depth heq := by
    cases heq
    omega
  raises_exhausted _ _ heq := nomatch heq
  raises_returning _ _ _ _ heq := nomatch heq
  inv_mark hinv _ := hinv
  unmark _ hp hrel := hrel.of_marked hp Promise.isMarked_mark_false
  keep value _ hp _ hrel :=
    (hrel.of_marked hp Promise.isMarked_mark_false).trans (.of_kept _ _ value)
  raises_unmark _ _ hraises := hraises
  inv_enter _ _ hinv _ hroom := ⟨hinv.1, hinv.1 ▸ hroom⟩
  leave i _ _ hrel := ⟨congrArg List.tail hrel.stack, hrel.options, hrel.marks⟩
  raises_leave _ _ _ _ hraises := hraises

namespace Contract

theorem teardown_loopBlind (most : Nat) : (teardown most).LoopBlind :=
  fun _ _ _ _ => ⟨rfl, rfl, fun _ => rfl⟩

theorem teardown_host {most : Nat} {s t : Session} (hinv : (teardown most).inv s)
    (hstep : s.HostStep t) : (teardown most).inv t := by
  cases hstep with
  | move h => exact (teardown most).inv_of_rel hinv (.of_move h)
  | hold preserved => exact hinv
  | publish ns => exact hinv
  | recount stats => exact hinv

end Contract

variable {options : Options} {kernels : KernelTable} {s : Session}

theorem Session.Reachable.teardown_inv (h : s.Reachable options kernels) :
    (Contract.teardown options.maxCallDepth).inv s :=
  (Contract.teardown_loopBlind _).closed.inv_of_reachable id ⟨rfl, Nat.zero_le _⟩
    Contract.teardown_host h

open Evaluator in
/-- Whatever the outcome of an evaluation, it leaves the stack and the marks of the promises as they
    were, and reports an overflow only at the depth that the options allow.  It passes through no
    session with more invocations than that, nor does an invocation on the way run in one. -/
theorem Session.Reachable.teardown (h : s.Reachable options kernels) (fuel : Nat) (entry : Entry) :
    (entry.run (evaluator fuel) s).2.stack = s.stack ∧
    (∀ id, (entry.run (evaluator fuel) s).2.promises.isMarked id = s.promises.isMarked id) ∧
    (∀ depth, (entry.run (evaluator fuel) s).1 = .error (.failure (.stackOverflow depth)) →
      depth = options.maxCallDepth) ∧
    (∀ t, Visits fuel (entry.run ·) s t → t.depth ≤ options.maxCallDepth) ∧
    ∀ (i : Invocation) (x y : SessionM Value),
      (∀ t, t.depth ≤ t.options.maxCallDepth → x t = y t) →
      SessionM.withInvocation i x = SessionM.withInvocation i y := by
  have hinv := h.teardown_inv
  have hclosed := (Contract.teardown_loopBlind options.maxCallDepth).closed
  obtain ⟨-, hrel, hraises⟩ := Contract.agree_entry (hclosed.agree_evaluator fuel) entry s hinv
  refine ⟨hrel.stack, hrel.marks, fun depth hover => hraises _ hover depth rfl, fun t ht => ?_,
    fun i x y hxy => SessionM.withInvocation_congr i hxy⟩
  exact (hclosed.inv_of_visits id (fun hev => Contract.agree_entry hev entry) hinv ht).2

/-- A session that allows no invocation refuses the first one, and its stack stays empty. -/
theorem Session.Reachable.teardown_refused :
    let s := Session.initial { maxCallDepth := 0 } .empty
    let entry := Evaluator.Entry.invoke ⟨⟨0⟩, [], .null, s.globalEnv⟩ s.globalEnv ⟨⟨1⟩, .null, []⟩
      [] []
    s.Reachable { maxCallDepth := 0 } .empty ∧
    (entry.run (evaluator 1) s).1 = .error (.failure (.stackOverflow 0)) ∧
    (entry.run (evaluator 1) s).2.stack = [] :=
  ⟨.initial, rfl, (Session.Reachable.teardown .initial 1 _).1⟩

end CallByNeed
