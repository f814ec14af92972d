import CallByNeed.Proofs.Dangling.Loops
import CallByNeed.Proofs.Heap.Collection
import CallByNeed.Proofs.Heap.Grounded

/-!
# No environment is left dangling

A collection in a session starts from everything that the session holds on to, so
what is left refers to nothing that was freed (`Session.Safe.collected`).  In the
middle of an evaluation there are values which only the evaluation knows of; that
is why evaluation itself never collects, but for the builtin by which a host lets
programs ask for it.  At top level the result is one more value to start from.

`Session.Closed.no_dangling` puts this together with the safety of evaluation.
-/

namespace CallByNeed

namespace Session

variable {s t : Session} {extra : List Value}

/-- What can be reached from the roots of the session and these values is in the other session,
    under the same references, what it was. -/
def KeepsReached (s : Session) (extra : List Value) (t : Session) : Prop :=
  ∀ id f, s.heap.frame? id = some f →
    s.heap.Reaches s.promises
      (Heap.StartsFrom s.promises s.rootEnvs (extra ++ s.rootValues)) id →
    t.heap.frame? id = some f

/-- Every promise that the session or these values hold on to is there, and none of them contains
    itself. -/
def Grounded (s : Session) (extra : List Value) : Prop :=
  ∀ v, s.Stores v ∨ v ∈ extra → v.Grounded s.promises

/-! ## Collections -/

theorem Safe.collected (hs : s.Safe) {freed : Nat} {heap : Heap}
    (hcollect : s.heap.collect s.promises s.rootEnvs (extra ++ s.rootValues) =
      some (freed, heap)) :
    ({ s with heap } : Session).Safe ∧
      (∀ v ∈ extra, s.Live v → ({ s with heap } : Session).Live v) ∧
      s.KeepsReached extra { s with heap } := by
  have hframe (id : EnvId) (f : Frame) : heap.frame? id = some f ↔
      s.heap.frame? id = some f ∧ s.heap.Reaches s.promises
        (Heap.StartsFrom s.promises s.rootEnvs (extra ++ s.rootValues)) id :=
    hs.intact.wellFormed.frame?_collect hcollect
  -- whatever is reached and there is there afterwards
  have hkept {id : EnvId} (hid : s.heap.contains id = true)
      (hreached : s.heap.Reaches s.promises
        (Heap.StartsFrom s.promises s.rootEnvs (extra ++ s.rootValues)) id) :
      heap.contains id = true := by
    obtain ⟨f, hf⟩ := Option.isSome_iff_exists.1 hid
    rw [Heap.contains, (hframe id f).2 ⟨hf, hreached⟩]
    rfl
  have hroot {v : Value} (hv : v ∈ extra ++ s.rootValues) (hlive : s.Live v) :
      ({ s with heap } : Session).Live v :=
    fun id hid => hkept (hlive id hid) (.start (.inr ⟨v, hv, hid⟩))
  refine ⟨⟨⟨?_, hs.intact.registryBase, hs.intact.owners⟩, ?_, ?_, ?_⟩, ?_, ?_⟩
  · exact hs.intact.wellFormed.collect hcollect
  · exact fun id hid => hkept (hs.roots id hid) (.start (.inl hid))
  · intro id f parent hf hparent
    -- the frame was reached, and so was what it refers to
    obtain ⟨hf, hreached⟩ := (hframe id f).1 hf
    exact hkept (hs.parents hf hparent) (hreached.link hf (.inl hparent))
  · intro v hv
    cases hv with
    | root hv =>
      have hadmits := hs.value hv
      exact ⟨hroot (List.mem_append_right _ hv) hadmits.live, hadmits.quiet⟩
    | @bound id f entry hf hentry =>
      obtain ⟨hf, hreached⟩ := (hframe id f).1 hf
      have hadmits := hs.stored _ (.bound hf hentry)
      refine ⟨fun next hnext => ?_, hadmits.quiet⟩
      exact hkept (hadmits.live next hnext) (hreached.link hf (.inr ⟨entry, hentry, hnext⟩))
  · exact fun v hv hlive => hroot (List.mem_append_left _ hv) hlive
  · exact fun id f hf hreached => (hframe id f).2 ⟨hf, hreached⟩

theorem Grounded.exists_collect (h : s.Grounded extra) :
    ∃ freed heap, s.heap.collect s.promises s.rootEnvs (extra ++ s.rootValues) =
      some (freed, heap) := by
  refine Heap.exists_collect (fun id f hf entry hentry => ?_) fun v hv => ?_
  · exact h _ (.inl (.bound hf hentry))
  · obtain hv | hv := List.mem_append.1 hv
    · exact h v (.inr hv)
    · exact h v (.inl (.root hv))

/-- What a collection in a session may come to: the session remains safe and changes in its frames
    only, these values remain live, and what they reach is kept.  If no promise contains itself, the
    collection is carried out. -/
structure Collects (s : Session) (extra : List Value) (r : Except Interrupt Nat × Session) :
    Prop where
  safe : r.2.Safe
  frames : r.2 = { s with heap := r.2.heap }
  live : ∀ v ∈ extra, r.2.Live v
  kept : s.KeepsReached extra r.2
  done : s.Grounded extra → ∃ freed, r.1 = .ok freed
  refused : ∀ e, r.1 = .error e → r = (.error .exhausted, s)

theorem Safe.collects (hs : s.Safe) (hextra : ∀ v ∈ extra, s.Live v) :
    s.Collects extra (SessionM.collect extra s) := by
  cases hcollect : s.heap.collect s.promises s.rootEnvs (extra ++ s.rootValues) with
  | none =>
    rw [SessionM.collect_run_refused hcollect]
    refine ⟨hs, rfl, hextra, fun id f hf _ => hf, fun hgrounded => ?_, fun _ _ => ?_⟩
    · obtain ⟨freed, heap, hdone⟩ := hgrounded.exists_collect
      cases hcollect.symm.trans hdone
    · rfl
  | some result =>
    obtain ⟨freed, heap⟩ := result
    rw [SessionM.collect_run hcollect]
    obtain ⟨hsafe, hlive, hkept⟩ := hs.collected hcollect
    exact ⟨hsafe, rfl, fun v hv => hlive v hv (hextra v hv), hkept, fun _ => ⟨freed, rfl⟩,
      fun _ he => nomatch he⟩

/-! ## The top level -/

/-- How an evaluation may end: in a session that is closed, intact and quiet and admits the value,
    or the value of the return, and not at a stale environment. -/
structure EndsClosed (r : Except Interrupt Value × Session) : Prop where
  closed : r.2.Closed
  intact : r.2.Intact
  quiet : r.2.Quiet
  value : ∀ v, r.1 = .ok v → r.2.Admits v
  returned : ∀ target v, r.1 = .error (.returning target v) → r.2.Admits v
  fresh : ∀ id, r.1 ≠ .error (.failure (.staleEnvironment id))

theorem EndsClosed.of_safe {r : Except Interrupt Value × Session} (hsafe : r.2.Safe)
    (hvalue : ∀ v, r.1 = .ok v → r.2.Admits v) (hraises : ∀ e, r.1 = .error e → r.2.Lets e) :
    EndsClosed r := by
  obtain ⟨hclosed, hintact, hquiet⟩ := safe_iff.1 hsafe
  refine ⟨hclosed, hintact, hquiet, hvalue, fun target v he => hraises _ he, fun id he => ?_⟩
  cases hraises _ he

theorem SafeAt.endsClosed {x : SessionM Value} (h : SafeAt s x Admits) : EndsClosed (x s) :=
  .of_safe h.onward.safe h.value h.raises

theorem SafeAt.atTopLevel {x : SessionM Value} (h : SafeAt s x Admits) :
    SafeAt s (SessionM.atTopLevel x) Admits := by
  obtain ⟨honward, hvalue, hraises⟩ := h
  rcases hrun : x s with ⟨(e | ⟨target, v⟩ | _) | v, t⟩ <;> rw [hrun] at honward hvalue hraises
  · exact .of_error (by simp only [SessionM.atTopLevel, hrun]) honward (hraises _ rfl)
  · exact .of_error (e := .failure .deadFrameReturn) (by simp only [SessionM.atTopLevel, hrun])
      honward rfl
  · exact .of_error (e := .exhausted) (by simp only [SessionM.atTopLevel, hrun]) honward trivial
  · exact .of_ok (by simp only [SessionM.atTopLevel, hrun]) honward (hvalue v rfl)

theorem collectIfDue_run (v : Value) (s : Session) :
    SessionM.collectIfDue v s =
      if s.depth = 0 && s.options.gcThreshold ≤ s.heap.allocatedSinceCollect then
        ((SessionM.collect [v] s).1.map fun _ => (), (SessionM.collect [v] s).2)
      else (.ok (), s) := by
  rw [SessionM.collectIfDue, SessionM.get_bind_run]
  split
  · rw [SessionM.bind_run]
    rcases SessionM.collect [v] s with ⟨e | freed, t⟩ <;> rfl
  · rfl

/-- A top-level evaluation that has its value keeps what the value reaches, whether it collects or
    not, and ends with the value unless the collection meets a promise that contains itself. -/
theorem Safe.collectIfDue (hs : s.Safe) {v : Value} (hv : s.Admits v) :
    let r := (do SessionM.collectIfDue v; return v : SessionM Value) s
    EndsClosed r ∧ s.KeepsReached [v] r.2 ∧ (s.Grounded [v] → r.1 = .ok v) := by
  intro r
  have hlive : ∀ w ∈ [v], s.Live w := by
    intro w hw
    rw [List.mem_singleton.1 hw]
    exact hv.live
  have hcollects := hs.collects hlive
  have hends {t : Session} (ht : t.Safe) (hvt : t.Admits v) : EndsClosed (.ok v, t) :=
    .of_safe ht (fun w hw => by cases hw; exact hvt) fun _ he => nomatch he
  have hrun := collectIfDue_run v s
  split at hrun
  · rcases hcollect : SessionM.collect [v] s with ⟨e | freed, t⟩ <;>
      rw [hcollect] at hcollects hrun
    · have hr : r = (.error e, t) := SessionM.bind_run_error hrun _
      cases hcollects.refused e rfl
      rw [hr]
      refine ⟨.of_safe hs (fun _ h => nomatch h) fun e he => ?_, fun _ _ hf _ => hf, fun h => ?_⟩
      · cases he
        trivial
      · obtain ⟨freed, hdone⟩ := hcollects.done h
        cases hdone
    · have hr : r = (.ok v, t) := SessionM.bind_run_ok hrun _
      -- the promises are the same, so the value asks for no collection now either
      have ht : t.Admits v := by
        refine ⟨hcollects.live v List.mem_cons_self, ?_⟩
        have hframes : t = { s with heap := t.heap } := hcollects.frames
        rw [hframes]
        exact hv.quiet
      rw [hr]
      exact ⟨hends hcollects.safe ht, hcollects.kept, fun _ => rfl⟩
  · have hr : r = (.ok v, s) := SessionM.bind_run_ok hrun _
    rw [hr]
    exact ⟨hends hs hv, fun _ _ hf _ => hf, fun _ => rfl⟩

/-- Nothing that a closed session holds on to is ever left dangling.  Evaluating an expression whose
    environments are there ends in a closed session, whatever its outcome; the value, or the value
    of a return, refers to environments that are there, and no stale one is met on the way.  A
    collection keeps a closed session closed, and it keeps what is reached from the roots of the
    session and the values it is given; it is carried out if no promise contains itself.  So a
    top-level evaluation ends in a closed session too, whatever its threshold, and keeps what is
    reached from its result and the roots.

    The session is to be intact, which its operations see to, and neither it nor the expression is
    to have the builtin by which a host lets programs collect in the middle of an evaluation. -/
theorem Closed.no_dangling (hclosed : s.Closed) (hintact : s.Intact) (hquiet : s.Quiet) :
    (∀ fuel expr env, s.Admits expr → s.heap.contains env = true →
      EndsClosed ((evaluator fuel).evaluate expr env s)) ∧
    (∀ extra, (∀ v ∈ extra, s.Live v) →
      let r := SessionM.collect extra s
      r.2.Closed ∧ r.2.Intact ∧ r.2.Quiet ∧ (∀ v ∈ extra, r.2.Live v) ∧
        s.KeepsReached extra r.2 ∧ (s.Grounded extra → ∃ freed, r.1 = .ok freed)) ∧
    (∀ fuel expr env, s.Admits expr → s.heap.contains env = true →
      let r := (evaluator fuel).evalIn expr env s
      EndsClosed r ∧ ∀ v t, (evaluator fuel).evaluate expr env s = (.ok v, t) →
        t.KeepsReached [v] r.2 ∧ (t.Grounded [v] → r.1 = .ok v)) ∧
    s.heap.contains s.globalEnv = true ∧
    ∀ fuel expr, (evaluator fuel).eval expr s = (evaluator fuel).evalIn expr s.globalEnv s := by
  have hs : s.Safe := safe_iff.2 ⟨hclosed, hintact, hquiet⟩
  have hevaluate (fuel : Nat) (expr : Value) (env : EnvId) (hexpr : s.Admits expr)
      (henv : s.heap.contains env = true) :
      SafeAt s ((evaluator fuel).evaluate expr env) Admits :=
    Evaluator.safe_evaluate (isSafe_evaluator fuel) hs henv hexpr
  refine ⟨fun fuel expr env hexpr henv => (hevaluate fuel expr env hexpr henv).endsClosed,
    fun extra hextra => ?_, fun fuel expr env hexpr henv => ?_, hs.global, fun _ _ => rfl⟩
  · have hcollects := hs.collects hextra
    obtain ⟨hclosed', hintact', hquiet'⟩ := safe_iff.1 hcollects.safe
    exact ⟨hclosed', hintact', hquiet', hcollects.live, hcollects.kept, hcollects.done⟩
  · intro r
    have htop := (hevaluate fuel expr env hexpr henv).atTopLevel
    have hsafe := htop.onward.safe
    rcases hrun : SessionM.atTopLevel ((evaluator fuel).evaluate expr env) s with ⟨e | v, t⟩ <;>
      rw [hrun] at hsafe
    · have hr : r = (.error e, t) := SessionM.bind_run_error hrun _
      rw [hr]
      have hends := htop.endsClosed
      rw [hrun] at hends
      refine ⟨hends, fun v u hvalue => ?_⟩
      simp only [SessionM.atTopLevel, hvalue] at hrun
      cases hrun
    · have hr : r = (do SessionM.collectIfDue v; return v : SessionM Value) t :=
        SessionM.bind_run_ok hrun _
      have hv : t.Admits v := by
        have hvalue := htop.value v
        rw [hrun] at hvalue
        exact hvalue rfl
      obtain ⟨hends, hkept, hdone⟩ := hsafe.collectIfDue hv
      rw [hr]
      refine ⟨hends, fun w u hvalue => ?_⟩
      simp only [SessionM.atTopLevel, hvalue] at hrun
      cases hrun
      exact ⟨hkept, hdone⟩

/-- Two functions without formals are called, one after the other.  The first one has the value
    NULL; the second one makes a function, which keeps the frame of its invocation. -/
def twoInvocations : Value :=
  let made (body : Value) : Value :=
    .call ⟨⟨0⟩, .symbol ⟨"function"⟩, [.untagged .null, .untagged body]⟩
  let invoked (body : Value) : Value := .call ⟨⟨1⟩, made body, []⟩
  .call ⟨⟨2⟩, .symbol ⟨"\x7b"⟩, [.untagged (invoked .null), .untagged (invoked (made .null))]⟩

/-- With a threshold of zero the evaluation ends with a collection, which frees the frame of the
    first invocation and not the one that the resulting function is defined in. -/
theorem Closed.no_dangling_function :
    let s := Session.initial { gcThreshold := 0 } .empty
    let r := (evaluator 4).evalIn twoInvocations s.globalEnv s
    s.Closed ∧ s.Intact ∧ s.Quiet ∧ s.Admits twoInvocations ∧ r.2.heap.stats.framesFreed = 1 ∧
      ∃ v, r.1 = .ok v ∧ v.ownEnv? r.2.promises = some ⟨3, 0⟩ ∧
        r.2.heap.contains ⟨3, 0⟩ = true := by
  intro s r
  obtain ⟨hclosed, hintact, hquiet⟩ := safe_iff.1 (safe_initial { gcThreshold := 0 } .empty)
  have hexpr : s.Admits twoInvocations := by
    simp [twoInvocations, admits_call, Arg.untagged]
  have hfreed : r.2.heap.stats.framesFreed = 1 := by decide +kernel
  have hfunction : (r.1.toOption.bind fun v => v.ownEnv? r.2.promises) = some ⟨3, 0⟩ := by
    decide +kernel
  obtain ⟨-, -, htop, hglobal, -⟩ := hclosed.no_dangling hintact hquiet
  have hends : EndsClosed r := (htop 4 twoInvocations s.globalEnv hexpr hglobal).1
  cases hvalue : r.1 with
  | error e =>
    rw [hvalue] at hfunction
    cases hfunction
  | ok v =>
    rw [hvalue] at hfunction
    exact ⟨hclosed, hintact, hquiet, hexpr, hfreed, v, rfl, hfunction,
      (hends.value v hvalue).live _ ⟨v, .refl, hfunction⟩⟩

end Session

end CallByNeed
