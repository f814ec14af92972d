import CallByNeed.Proofs.Reachable
import Mathlib.Data.List.Forall2

/-!
# Resolving names without evaluation

A name resolves quietly if every promise that looking for a function of that
name meets has its value already.  `Session.resolve?` looks in this way and
answers `none` where it would have to evaluate something, or would fail.

Looking a function up then leaves the session as it is (`function?_run_quiet`).
The converse holds too (`function?_run_iff`): what was waiting and was forced on
the way has its value afterwards, so the session is another one.
-/

namespace CallByNeed

namespace Session

/-- The value that is behind a value: the value of a promise, if it is known. -/
def known? (s : Session) : Value → Option Value
  | .promise id => (s.promises.get? id).bind Promise.value?
  | value => some value

theorem known?_promise_eq_some_iff {s : Session} {id : PromiseId} {known : Value} :
    s.known? (.promise id) = some known ↔
      ∃ expr, s.promises.get? id = some ⟨expr, .kept known⟩ := by
  constructor
  · intro h
    obtain ⟨⟨expr, state⟩, hp, hvalue⟩ := Option.bind_eq_some_iff.1 h
    cases state with
    | waiting env mark => cases hvalue
    | kept value =>
      cases hvalue
      exact ⟨expr, hp⟩
  · rintro ⟨expr, hp⟩
    simp [known?, hp, Promise.value?]

/-- The first function bound to `name` in at most `fuel` frames, from `start` outward; `none` if
    that cannot be told without evaluation. -/
def resolveWithin (s : Session) (name : Symbol) : (fuel : Nat) → (start : Option EnvId) →
    Option (Option Value)
  | _, none => some none
  | 0, some _ => none
  | fuel + 1, some id => do
    let frame ← s.heap.frame? id
    match frame.get? name with
    | none => s.resolveWithin name fuel frame.parent
    | some binding =>
      let value ← s.known? binding.value
      if value.isFunction then some (some value) else s.resolveWithin name fuel frame.parent

/-- The function that `name` stands for as seen from `env`, if there is one; `none` if that cannot
    be told without evaluation. -/
def resolve? (s : Session) (env : EnvId) (name : Symbol) : Option (Option Value) :=
  s.resolveWithin name (s.heap.slots.size + 1) (some env)

/-- The value of a variable as seen from `env`; `none` if it has none that is known. -/
def valueOf? (s : Session) (env : EnvId) (name : Symbol) : Option Value :=
  match s.heap.lookup env name with
  | .ok value => s.known? value
  | .error _ => none

end Session

/-- The frame does not bind the name to a promise that is waiting. -/
def Frame.Settled (frame : Frame) (promises : PromiseStore) (name : Symbol) : Prop :=
  ∀ binding, frame.get? name = some binding → ∀ id, binding.value = .promise id →
    promises.isWaiting id = false

/-- No frame seen from `env` binds one of the names to a promise that is waiting. -/
def Session.Settled (s : Session) (env : EnvId) (names : List Symbol) : Prop :=
  ∀ name ∈ names, ∀ entry ∈ (s.heap.scope env).frames, entry.2.Settled s.promises name

/-! ## One step of a search

What a search does with the frame that it begins in; both the quiet one and the one that forces
promises are then followed frame by frame. -/

section

variable {s : Session} {name : Symbol} {fuel : Nat} {id : EnvId} {frame : Frame}

theorem Session.resolveWithin_of_stale (hframe : s.heap.frame? id = none) :
    s.resolveWithin name (fuel + 1) (some id) = none := by
  rw [resolveWithin, hframe]
  rfl

theorem Session.resolveWithin_of_unbound (hframe : s.heap.frame? id = some frame)
    (hget : frame.get? name = none) :
    s.resolveWithin name (fuel + 1) (some id) = s.resolveWithin name fuel frame.parent := by
  simp only [resolveWithin, hframe, Option.bind_eq_bind, Option.bind_some, hget]

theorem Session.resolveWithin_of_bound {binding : Binding} (hframe : s.heap.frame? id = some frame)
    (hget : frame.get? name = some binding) :
    s.resolveWithin name (fuel + 1) (some id) = (s.known? binding.value).bind fun value =>
      if value.isFunction then some (some value) else s.resolveWithin name fuel frame.parent := by
  simp only [resolveWithin, hframe, Option.bind_eq_bind, Option.bind_some, hget]

namespace Evaluator

variable (ev : Evaluator)

theorem functionWithin_run_stale (hframe : s.heap.frame? id = none) :
    ev.functionWithin name (fuel + 1) (some id) s =
      (.error (.failure (.staleEnvironment id)), s) := by
  rw [functionWithin]
  exact SessionM.bind_run_error (SessionM.askFrame_run_stale hframe) _

theorem functionWithin_run_unbound (hframe : s.heap.frame? id = some frame)
    (hget : frame.get? name = none) :
    ev.functionWithin name (fuel + 1) (some id) s = ev.functionWithin name fuel frame.parent s := by
  rw [functionWithin, SessionM.bind_run_ok (SessionM.askFrame_run hframe), hget]

theorem functionWithin_run_bound {binding : Binding} (hframe : s.heap.frame? id = some frame)
    (hget : frame.get? name = some binding) :
    ev.functionWithin name (fuel + 1) (some id) s =
      (ev.force binding.value >>= fun value =>
        if value.isFunction then pure (some value)
        else ev.functionWithin name fuel frame.parent) s := by
  rw [functionWithin, SessionM.bind_run_ok (SessionM.askFrame_run hframe), hget]

end Evaluator

end

/-! ## Forcing what is known -/

namespace Evaluator

variable (ev : Evaluator) {s : Session}

theorem force_run_known {value known : Value} (h : s.known? value = some known) :
    ev.force value s = (.ok known, s) := by
  cases value with
  | promise id =>
    obtain ⟨expr, hp⟩ := Session.known?_promise_eq_some_iff.1 h
    exact ev.demand_run_kept hp
  | _ =>
    cases h
    rfl

theorem force_run_unknown {value : Value} (h : s.known? value = none)
    (hwaiting : ∀ id, value = .promise id → s.promises.isWaiting id = false) :
    ev.force value s = (.error (.failure .recursivePromise), s) := by
  cases value with
  | promise id =>
    have hwaiting := hwaiting id rfl
    refine ev.demand_run_recursive (fun _ _ hp => ?_) fun _ _ hp => ?_
    · cases h.symm.trans (Session.known?_promise_eq_some_iff.2 ⟨_, hp⟩)
    · simp [PromiseStore.isWaiting, hp, Promise.isKept, Promise.value?] at hwaiting
  | _ => cases h

/-- Arguments with known values are forced one by one, and the session stays as it is. -/
theorem forceArgs_run_known {R : Arg Value → Arg Value → Prop} {args passed : ArgList}
    (h : List.Forall₂ (fun arg given => given.value.isMissingArg = false ∧
      ∃ known, s.known? given.value = some known ∧ R arg (.new given.tag known)) args passed) :
    ∃ operands, passed.mapM ev.forceArg s = (.ok operands, s) ∧ List.Forall₂ R args operands := by
  induction h with
  | nil => exact ⟨[], rfl, .nil⟩
  | @cons _ given _ _ hfirst _ ih =>
    obtain ⟨hgiven, known, hknown, hR⟩ := hfirst
    obtain ⟨operands, hrun, hoperands⟩ := ih
    have hforce : ev.forceArg given s = (.ok (.new given.tag known), s) := by
      rw [forceArg, if_neg (by simp [hgiven]), SessionM.bind_run_ok (ev.force_run_known hknown)]
      rfl
    refine ⟨.new given.tag known :: operands, ?_, .cons hR hoperands⟩
    rw [List.mapM_cons, SessionM.bind_run_ok hforce, SessionM.bind_run_ok hrun]
    rfl

/-- Looking for a function leaves the session as it is if that needs no evaluation. -/
theorem functionWithin_run_quiet {name : Symbol} {fuel : Nat} {start : Option EnvId}
    {found : Option Value} (h : s.resolveWithin name fuel start = some found) :
    ev.functionWithin name fuel start s = (.ok found, s) := by
  induction fuel generalizing start with
  | zero =>
    cases start with
    | none => cases h; rfl
    | some id => cases h
  | succ fuel ih =>
    cases start with
    | none => cases h; rfl
    | some id =>
      cases hframe : s.heap.frame? id with
      | none => cases (Session.resolveWithin_of_stale hframe).symm.trans h
      | some frame =>
        cases hget : frame.get? name with
        | none =>
          rw [ev.functionWithin_run_unbound hframe hget]
          exact ih ((Session.resolveWithin_of_unbound hframe hget).symm.trans h)
        | some binding =>
          rw [Session.resolveWithin_of_bound hframe hget] at h
          obtain ⟨value, hvalue, h⟩ := Option.bind_eq_some_iff.1 h
          rw [ev.functionWithin_run_bound hframe hget,
            SessionM.bind_run_ok (ev.force_run_known hvalue)]
          split at h
          · rename_i hfunction
            cases h
            rw [if_pos hfunction]
            rfl
          · rename_i hfunction
            rw [if_neg hfunction]
            exact ih h

theorem function?_run_quiet {env : EnvId} {name : Symbol} {found : Option Value}
    (h : s.resolve? env name = some found) : ev.function? env name s = (.ok found, s) :=
  ev.functionWithin_run_quiet h

/-- Looking for a function leaves the session as it is, whatever it comes to, if no promise on the
    way is waiting. -/
theorem functionWithin_run_settled {name : Symbol} {fuel : Nat} {start : Option EnvId}
    (h : ∀ entry ∈ (s.heap.scopeWithin fuel start).frames, entry.2.Settled s.promises name) :
    ∃ outcome, ev.functionWithin name fuel start s = (outcome, s) := by
  induction fuel generalizing start with
  | zero => cases start <;> exact ⟨_, rfl⟩
  | succ fuel ih =>
    cases start with
    | none => exact ⟨_, rfl⟩
    | some id =>
      cases hframe : s.heap.frame? id with
      | none => exact ⟨_, ev.functionWithin_run_stale hframe⟩
      | some frame =>
        rw [Heap.scopeWithin, hframe] at h
        obtain ⟨hsettled, houter⟩ := List.forall_mem_cons.1 h
        cases hget : frame.get? name with
        | none =>
          rw [ev.functionWithin_run_unbound hframe hget]
          exact ih houter
        | some binding =>
          rw [ev.functionWithin_run_bound hframe hget]
          -- a promise that is neither known nor waiting is under evaluation, or is not there
          cases hknown : s.known? binding.value with
          | none =>
            have hforce := ev.force_run_unknown hknown (hsettled binding hget)
            exact ⟨_, SessionM.bind_run_error hforce _⟩
          | some value =>
            rw [SessionM.bind_run_ok (ev.force_run_known hknown)]
            split
            · exact ⟨_, rfl⟩
            · exact ih houter

end Evaluator

/-! ## What forcing a promise leaves behind -/

namespace Session

/-- No promise is lost, and every promise that has its value in `s` has it in `t` too. -/
structure KeepsPromises (s t : Session) : Prop where
  size : s.promises.cells.size ≤ t.promises.cells.size
  kept : ∀ id expr value, s.promises.get? id = some ⟨expr, .kept value⟩ →
    t.promises.get? id = some ⟨expr, .kept value⟩

namespace KeepsPromises

variable {s t u : Session}

theorem trans (h₁ : KeepsPromises s t) (h₂ : KeepsPromises t u) : KeepsPromises s u :=
  ⟨Nat.le_trans h₁.size h₂.size,
    fun id expr value h => h₂.kept id expr value (h₁.kept id expr value h)⟩

theorem of_promises (h : t.promises = s.promises) : KeepsPromises s t := by
  refine ⟨Nat.le_of_eq (by rw [h]), fun id expr value hp => ?_⟩
  rw [h, hp]

theorem of_move (h : s.Move t) : KeepsPromises s t := by
  cases h with
  | promise p _ =>
    refine ⟨by simp [PromiseStore.add], fun id expr value hp => ?_⟩
    obtain ⟨hindex, -⟩ := Array.getElem?_eq_some_iff.1 hp
    have hne : id.index ≠ s.promises.cells.size := Nat.ne_of_lt hindex
    simpa [PromiseStore.add, PromiseStore.get?, Array.getElem?_push, hne] using hp
  | _ => exact .of_promises rfl

/-- A change of a promise that has no value yet keeps the others. -/
theorem update {id : PromiseId} {expr : Value} {env : EnvId} {mark : Bool}
    (f : Promise → Promise) (hp : s.promises.get? id = some ⟨expr, .waiting env mark⟩)
    (h : KeepsPromises s t) : KeepsPromises s { t with promises := t.promises.update id f } := by
  -- the promise that is changed had no value in `s`, so it is none of those to be kept
  refine ⟨?_, fun other expr' value hother => ?_⟩
  · simpa [PromiseStore.update] using h.size
  · have hne := PromiseStore.ne_of_get? hp hother (by simp)
    exact (PromiseStore.get?_update_of_ne f hne).trans (h.kept other expr' value hother)

end KeepsPromises

variable {s t : Session}

theorem known?_of_keepsPromises {value known : Value} (h : s.KeepsPromises t)
    (hknown : s.known? value = some known) : t.known? value = some known := by
  cases value with
  | promise id =>
    obtain ⟨expr, hp⟩ := known?_promise_eq_some_iff.1 hknown
    exact known?_promise_eq_some_iff.2 ⟨expr, h.kept id expr known hp⟩
  | _ => exact hknown

/-- What needs no evaluation to be found is found again as long as the frames are the same. -/
theorem resolveWithin_of_keepsPromises {name : Symbol} {fuel : Nat} {start : Option EnvId}
    {found : Option Value} (hheap : t.heap = s.heap) (h : s.KeepsPromises t)
    (hfound : s.resolveWithin name fuel start = some found) :
    t.resolveWithin name fuel start = some found := by
  induction fuel generalizing start with
  | zero => cases start <;> exact hfound
  | succ fuel ih =>
    cases start with
    | none => exact hfound
    | some id =>
      cases hframe : s.heap.frame? id with
      | none => cases (resolveWithin_of_stale hframe).symm.trans hfound
      | some frame =>
        have hframe' : t.heap.frame? id = some frame := by rw [hheap, hframe]
        cases hget : frame.get? name with
        | none =>
          rw [resolveWithin_of_unbound hframe hget] at hfound
          rw [resolveWithin_of_unbound hframe' hget]
          exact ih hfound
        | some binding =>
          rw [resolveWithin_of_bound hframe hget] at hfound
          obtain ⟨value, hvalue, hfound⟩ := Option.bind_eq_some_iff.1 hfound
          rw [resolveWithin_of_bound hframe' hget, known?_of_keepsPromises h hvalue,
            Option.bind_some]
          split at hfound
          · rename_i hfunction
            rwa [if_pos hfunction]
          · rename_i hfunction
            rw [if_neg hfunction]
            exact ih hfound

theorem resolve?_of_keepsPromises {env : EnvId} {name : Symbol} {found : Option Value}
    (hheap : t.heap = s.heap) (h : s.KeepsPromises t) (hfound : s.resolve? env name = some found) :
    t.resolve? env name = some found := by
  rw [resolve?, hheap]
  exact resolveWithin_of_keepsPromises hheap h hfound

end Session

/-- Promises that have their value keep it. -/
def Contract.keepsPromises : Contract where
  inv _ := True
  rel := Session.KeepsPromises
  raises _ _ := True
  lenient := False
  refl _ := .of_promises rfl
  trans := .trans
  inv_of_rel _ _ := trivial
  raises_of_rel _ _ _ := trivial
  move _ hmove := .of_move hmove
  raises_failure _ _ := trivial
  raises_overflow _ _ := trivial
  raises_exhausted _ := trivial
  raises_returning _ _ _ := trivial
  inv_mark _ _ := trivial
  unmark _ hp hrel :=
    (((Session.KeepsPromises.of_promises rfl).update _ hp).trans hrel).update _ hp
  keep _ _ hp _ hrel :=
    ((((Session.KeepsPromises.of_promises rfl).update _ hp).trans hrel).update _ hp).update _ hp
  raises_unmark _ _ _ := trivial
  inv_enter _ _ _ _ _ := trivial
  leave _ _ _ hrel := ⟨hrel.size, hrel.kept⟩
  raises_leave _ _ _ _ _ := trivial

theorem Contract.keepsPromises_loopBlind : keepsPromises.LoopBlind :=
  fun _ _ _ _ => .of_promises rfl

namespace Evaluator

variable {fuel : Nat} {s t : Session}

/-- A promise that was forced has its value, so the session is another one unless it had that
    before. -/
theorem known?_of_force {value forced : Value}
    (h : (evaluator fuel).force value s = (.ok forced, t)) :
    s.known? value = some forced ∧ t = s ∨
      ∃ id, value = .promise id ∧ s.known? value = none ∧
        ∃ expr, t.promises.get? id = some ⟨expr, .kept forced⟩ := by
  cases value with
  | promise id =>
    change (evaluator fuel).demand id s = _ at h
    rcases hp : s.promises.get? id with _ | ⟨expr, (⟨env, _ | _⟩ | kept)⟩
    · rw [demand_run_recursive _ (by simp [hp]) (by simp [hp])] at h
      cases h
    · rw [demand_run_waiting _ hp] at h
      -- the promise is still there after its evaluation, so it can be given its value
      have hclosed := Contract.keepsPromises_loopBlind.closed
      have hrel : (s.mark id true).KeepsPromises
          ((evaluator fuel).evaluate expr env (s.mark id true)).2 :=
        (hclosed.agree_evaluator fuel (.evaluate expr env) _ trivial).rel
      rcases heval : (evaluator fuel).evaluate expr env (s.mark id true) with ⟨_ | value, u⟩ <;>
        rw [heval] at h
      · cases h
      · cases h
        refine .inr ⟨id, rfl, by simp [Session.known?, hp, Promise.value?], ?_⟩
        rw [heval] at hrel
        have hindex : id.index < u.promises.cells.size := by
          obtain ⟨hindex, -⟩ := Array.getElem?_eq_some_iff.1 hp
          have hsize := hrel.size
          simp only [Session.mark, PromiseStore.update, Array.size_modify] at hsize
          omega
        have hthere : u.promises.get? id = some u.promises.cells[id.index] :=
          Array.getElem?_eq_getElem hindex
        exact ⟨_, PromiseStore.get?_update_self _ (PromiseStore.get?_update_self _ hthere)⟩
    · rw [demand_run_recursive _ (by simp [hp]) (by simp [hp])] at h
      cases h
    · rw [demand_run_kept _ hp] at h
      cases h
      exact .inl ⟨Session.known?_promise_eq_some_iff.2 ⟨_, hp⟩, rfl⟩
  | _ =>
    cases h
    exact .inl ⟨rfl, rfl⟩

/-- What a search does after it forced something keeps the value of every promise. -/
theorem kept_onward {name : Symbol} {limit : Nat} {start : Option EnvId} {forced value expr : Value}
    {id : PromiseId} {outcome : Except Interrupt (Option Value)}
    (hkept : s.promises.get? id = some ⟨expr, .kept value⟩)
    (h : (if forced.isFunction then pure (some forced)
      else (evaluator fuel).functionWithin name limit start : SessionM (Option Value)) s =
        (outcome, t)) :
    t.promises.get? id = some ⟨expr, .kept value⟩ := by
  -- no evaluation takes a value from a promise that has it
  have hclosed := Contract.keepsPromises_loopBlind.closed
  have hrest : Contract.keepsPromises.Keeps
      (if forced.isFunction then pure (some forced)
        else (evaluator fuel).functionWithin name limit start) :=
    .ite (Contract.keeps_pure _)
      (Contract.agree_functionWithin (hclosed.agree_evaluator fuel) _ _ _)
  have hrel := (hrest s trivial).rel
  rw [h] at hrel
  exact hrel.kept id expr value hkept

/-- Where looking for a function forces no promise, it needed no evaluation: a promise that had to
    be forced would have its value now. -/
theorem resolveWithin_of_run {name : Symbol} {limit : Nat} {start : Option EnvId}
    {found : Option Value}
    (h : (evaluator fuel).functionWithin name limit start s = (.ok found, t))
    (hback : t.KeepsPromises s) :
    s.resolveWithin name limit start = some found ∧ t = s := by
  induction limit generalizing start with
  | zero =>
    cases start with
    | none => cases h; exact ⟨rfl, rfl⟩
    | some id => cases h
  | succ limit ih =>
    cases start with
    | none => cases h; exact ⟨rfl, rfl⟩
    | some id =>
      cases hframe : s.heap.frame? id with
      | none => cases (functionWithin_run_stale _ hframe).symm.trans h
      | some frame =>
        cases hget : frame.get? name with
        | none =>
          rw [functionWithin_run_unbound _ hframe hget] at h
          rw [Session.resolveWithin_of_unbound hframe hget]
          exact ih h
        | some binding =>
          rw [functionWithin_run_bound _ hframe hget] at h
          rw [Session.resolveWithin_of_bound hframe hget]
          rcases hforce : (evaluator fuel).force binding.value s with ⟨_ | forced, u⟩
          · cases (SessionM.bind_run_error hforce _).symm.trans h
          rw [SessionM.bind_run_ok hforce] at h
          rcases known?_of_force hforce with ⟨hknown, rfl⟩ | ⟨id, hid, hunknown, expr, hkept⟩
          · rw [hknown, Option.bind_some]
            split at h
            · rename_i hfunction
              cases h
              rw [if_pos hfunction]
              exact ⟨rfl, rfl⟩
            · rename_i hfunction
              rw [if_neg hfunction]
              exact ih h
          -- this promise was forced: it has its value at the end, and so in `s`, where it had none
          · have hstill := hback.kept id expr forced (kept_onward hkept h)
            rw [hid] at hunknown
            cases hunknown.symm.trans (Session.known?_promise_eq_some_iff.2 ⟨_, hstill⟩)

theorem resolve?_of_run {env : EnvId} {name : Symbol} {found : Option Value}
    (h : (evaluator fuel).function? env name s = (.ok found, t)) (hback : t.KeepsPromises s) :
    s.resolve? env name = some found ∧ t = s :=
  resolveWithin_of_run h hback

/-- A name resolves quietly exactly if resolving it changes nothing and raises nothing. -/
theorem function?_run_iff {env : EnvId} {name : Symbol} {found : Option Value} :
    (evaluator fuel).function? env name s = (.ok found, s) ↔
      s.resolve? env name = some found :=
  ⟨fun h => (resolve?_of_run h (.of_promises rfl)).1, (evaluator fuel).function?_run_quiet⟩

theorem keepsPromises_of_function? {env : EnvId} {name : Symbol}
    {outcome : Except Interrupt (Option Value)}
    (h : (evaluator fuel).function? env name s = (outcome, t)) : s.KeepsPromises t := by
  have hclosed := Contract.keepsPromises_loopBlind.closed
  have hrel := (Contract.agree_function? (hclosed.agree_evaluator fuel) env name s trivial).rel
  rwa [h] at hrel

end Evaluator

end CallByNeed
