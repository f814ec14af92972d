import CallByNeed.Proofs.Contract.Loops
import CallByNeed.Proofs.Dangling.Outcomes
import CallByNeed.Proofs.OnlyFails

/-!
# What an evaluation uses up

Evaluations inside each other come to an end since each of them uses something up:
an invocation takes room on the stack, forcing takes one of the promises that wait
(`PromiseStore.idleBelow`), a method that is applied in the environment of a caller
takes us further out on the stack (`Session.rank`), and otherwise the task gets
smaller (`Task.weight`).  None of it comes back meanwhile: what is evaluated to an
end on the way leaves the stack as it was, and the promises it makes are younger
(`Session.Steady`).
-/

namespace CallByNeed

/-! ## Promises that wait -/

namespace PromiseStore

variable {store store' : PromiseStore} {id : PromiseId} {expr : Value} {env : EnvId} {bound : Nat}

/-- Whether the promise waits and is not under evaluation. -/
def isIdle (store : PromiseStore) (i : Nat) : Bool :=
  match store.cells[i]? with
  | some ⟨_, .waiting _ underEvaluation⟩ => !underEvaluation
  | _ => false

/-- How many of the `bound` oldest promises are idle. -/
def idleBelow (store : PromiseStore) (bound : Nat) : Nat :=
  ((Finset.range bound).filter fun i => store.isIdle i).card

/-- Whether one of the promises after the `bound` oldest is under evaluation. -/
def marksBeyond (store : PromiseStore) (bound : Nat) : Bool :=
  (store.cells.toList.drop bound).any Promise.isMarked

theorem isIdle_iff {i : Nat} : store.isIdle i = true ↔
    ∃ expr env, store.get? ⟨i⟩ = some ⟨expr, .waiting env false⟩ := by
  unfold isIdle get?
  rcases store.cells[i]? with _ | ⟨expr, ⟨env, _ | _⟩ | value⟩ <;> simp

theorem idleBelow_le (h : ∀ i < bound, store'.isIdle i = true → store.isIdle i = true) :
    store'.idleBelow bound ≤ store.idleBelow bound := by
  refine Finset.card_le_card fun i hi => ?_
  simp only [Finset.mem_filter, Finset.mem_range] at hi ⊢
  exact ⟨hi.1, h i hi.1 hi.2⟩

/-- A promise that is marked is no longer idle. -/
theorem idleBelow_mark_lt (hp : store.get? id = some ⟨expr, .waiting env false⟩)
    (hid : id.index < bound) :
    (store.update id (Promise.mark true)).idleBelow bound < store.idleBelow bound := by
  have hself := get?_update_self (Promise.mark true) hp
  -- the idle promises after the marking are a proper part of those before: this one is missing
  refine Finset.card_lt_card ⟨fun i hi => ?_, fun hsubset => ?_⟩
  · simp only [Finset.mem_filter, Finset.mem_range] at hi ⊢
    refine ⟨hi.1, ?_⟩
    obtain ⟨expr', env', hidle⟩ := isIdle_iff.1 hi.2
    have hne : (⟨i⟩ : PromiseId) ≠ id := by
      rintro rfl
      cases hself.symm.trans hidle
    rw [get?_update_of_ne _ hne] at hidle
    exact isIdle_iff.2 ⟨expr', env', hidle⟩
  · have hmem : id.index ∈ (Finset.range bound).filter fun i => store.isIdle i := by
      simp only [Finset.mem_filter, Finset.mem_range]
      exact ⟨hid, isIdle_iff.2 ⟨expr, env, hp⟩⟩
    have hstill := (Finset.mem_filter.1 (hsubset hmem)).2
    obtain ⟨expr', env', hidle⟩ := isIdle_iff.1 hstill
    cases hself.symm.trans hidle

theorem lt_of_marksBeyond (h : store.marksBeyond bound = false)
    (hp : store.get? id = some ⟨expr, .waiting env true⟩) : id.index < bound := by
  by_contra hbeyond
  obtain ⟨hindex, hcell⟩ := Array.getElem?_eq_some_iff.1 hp
  have hmem : (⟨expr, .waiting env true⟩ : Promise) ∈ store.cells.toList.drop bound := by
    refine List.mem_iff_getElem?.2 ⟨id.index - bound, ?_⟩
    rw [List.getElem?_drop, Nat.add_sub_cancel' (by omega), Array.getElem?_toList]
    exact hp
  have hmarked := List.any_eq_false.1 h _ hmem
  exact hmarked rfl

end PromiseStore

/-! ## What stays as it was -/

namespace Session

variable {s t u : Session} {env : EnvId}

/-- The stack is the same, and a promise that is idle now is a new one or was idle before. -/
structure Steady (s t : Session) : Prop where
  stack : t.stack = s.stack
  options : t.options = s.options
  size : s.promises.cells.size ≤ t.promises.cells.size
  idle : ∀ i < s.promises.cells.size, t.promises.isIdle i = true → s.promises.isIdle i = true

namespace Steady

theorem of_promises (hstack : t.stack = s.stack) (hoptions : t.options = s.options)
    (hpromises : t.promises = s.promises) : s.Steady t :=
  ⟨hstack, hoptions, Nat.le_of_eq (by rw [hpromises]), fun _ _ h => hpromises ▸ h⟩

theorem refl (s : Session) : s.Steady s := .of_promises rfl rfl rfl

theorem trans (h₁ : s.Steady t) (h₂ : t.Steady u) : s.Steady u where
  stack := h₂.stack.trans h₁.stack
  options := h₂.options.trans h₁.options
  size := Nat.le_trans h₁.size h₂.size
  idle i hi h := h₁.idle i hi (h₂.idle i (Nat.lt_of_lt_of_le hi h₁.size) h)

theorem depth (h : s.Steady t) : t.depth = s.depth := congrArg List.length h.stack

theorem of_move (h : s.Move t) : s.Steady t := by
  cases h with
  | promise p _ =>
    refine ⟨rfl, rfl, by simp [PromiseStore.add], fun i hi h => ?_⟩
    obtain ⟨expr, env, hp⟩ := PromiseStore.isIdle_iff.1 h
    refine PromiseStore.isIdle_iff.2 ⟨expr, env, ?_⟩
    simpa [PromiseStore.add, PromiseStore.get?, Array.getElem?_push, Nat.ne_of_lt hi] using hp
  | _ => exact .of_promises rfl rfl rfl

/-- Whatever is done in the end to a promise that was idle at first. -/
theorem update {id : PromiseId} {expr : Value} (f : Promise → Promise)
    (hp : s.promises.get? id = some ⟨expr, .waiting env false⟩) (h : s.Steady t) :
    s.Steady { t with promises := t.promises.update id f } := by
  refine ⟨h.stack, h.options, ?_, fun i hi hidle => ?_⟩
  · simpa [PromiseStore.update] using h.size
  · by_cases hid : (⟨i⟩ : PromiseId) = id
    · subst hid
      exact PromiseStore.isIdle_iff.2 ⟨expr, env, hp⟩
    · obtain ⟨expr', env', hp'⟩ := PromiseStore.isIdle_iff.1 hidle
      rw [PromiseStore.get?_update_of_ne f hid] at hp'
      exact h.idle i hi (PromiseStore.isIdle_iff.2 ⟨expr', env', hp'⟩)

end Steady

/-! ## Callers -/

/-- No invocation was called from its own frame, or from that of an invocation inside it. -/
structure CallsOutward (s : Session) : Prop where
  own : ∀ i ∈ s.stack, i.callerEnv ≠ i.env
  inside : s.stack.Pairwise fun inner outer => outer.callerEnv ≠ inner.env

/-- How many invocations there are from the one in `env` outward; none if there is none in `env`. -/
def rank (s : Session) (env : EnvId) : Nat := (s.stack.dropWhile fun i => i.env != env).length

/-- The caller of an invocation is further out. -/
theorem CallsOutward.rank_lt {i : Invocation} (h : s.CallsOutward)
    (hi : s.invocationOf? env = some i) : s.rank i.callerEnv < s.rank env := by
  obtain ⟨hown, hinside⟩ := h
  simp only [rank]
  rw [invocationOf?] at hi
  generalize s.stack = stack at hi hown hinside
  -- by induction on the stack, from the innermost invocation outward
  induction stack with
  | nil => cases hi
  | cons j rest ih =>
    obtain ⟨hj, hrest⟩ := List.pairwise_cons.1 hinside
    by_cases henv : j.env = env
    · rw [List.find?_cons_of_pos (by simpa using henv)] at hi
      cases hi
      have hne : i.env ≠ i.callerEnv := (hown i List.mem_cons_self).symm
      rw [List.dropWhile_cons_of_pos (by simpa using hne),
        List.dropWhile_cons_of_neg (by simpa using henv)]
      exact Nat.lt_succ_of_le (List.dropWhile_suffix _).length_le
    · rw [List.find?_cons_of_neg (by simpa using henv)] at hi
      have hne : j.env ≠ i.callerEnv := (hj i (List.mem_of_find?_eq_some hi)).symm
      rw [List.dropWhile_cons_of_pos (by simpa using hne),
        List.dropWhile_cons_of_pos (by simpa using henv)]
      exact ih hi (fun k hk => hown k (.tail _ hk)) hrest

/-- The session is safe, its frames lie in layers, and callers are further out than what they
    called. -/
structure Founded (s : Session) : Prop where
  safe : s.Safe
  layered : s.heap.Layered
  outward : s.CallsOutward

namespace Founded

theorem onward (hs : s.Founded) (honward : s.Onward t) (hsteady : s.Steady t) : t.Founded := by
  refine ⟨honward.safe, honward.deepens.layered hs.layered, ?_, ?_⟩ <;> rw [hsteady.stack]
  · exact hs.outward.own
  · exact hs.outward.inside

theorem mark (hs : s.Founded) (id : PromiseId) (underEvaluation : Bool) :
    (s.mark id underEvaluation).Founded := by
  have honward := hs.safe.onward_mark id underEvaluation
  exact ⟨honward.safe, honward.deepens.layered hs.layered, hs.outward.own, hs.outward.inside⟩

/-- The frame of an invocation that is entered is a new one, so nobody was called from there. -/
theorem enter (hs : s.Founded) {parent : Option EnvId} {i : Invocation}
    (hparent : ∀ id ∈ parent, s.heap.contains id = true)
    (henv : i.env = (s.heap.allocate parent).1) (hcaller : s.heap.contains i.callerEnv = true)
    (hi : ({ s with heap := (s.heap.allocate parent).2 } : Session).AdmitsInvocation i) :
    ({ s with heap := (s.heap.allocate parent).2 }.enter i).Founded := by
  have hallocate := hs.safe.onward_allocate hparent
  have henter := hallocate.safe.onward_enter hi
  have hnew {id : EnvId} (hid : s.heap.contains id = true) : id ≠ i.env := by
    rintro rfl
    rw [henv, Heap.contains, Heap.allocate, hs.safe.intact.wellFormed.frame?_new] at hid
    cases hid
  -- the invocations below were called from frames that were there before the new one
  have houtward : (i :: s.stack).Pairwise fun inner outer => outer.callerEnv ≠ inner.env :=
    List.pairwise_cons.2
      ⟨fun outer houter => hnew (hs.safe.invocation houter).callerEnv, hs.outward.inside⟩
  refine ⟨henter.safe, henter.deepens.layered (hallocate.deepens.layered hs.layered),
    fun j hj => ?_, houtward⟩
  obtain rfl | hj := List.mem_cons.1 hj
  · exact hnew hcaller
  · exact hs.outward.own j hj

theorem initial (options : Options) (kernels : KernelTable) :
    (Session.initial options kernels).Founded :=
  ⟨safe_initial options kernels, layered_initial options kernels,
    ⟨fun _ hi => (nomatch hi), List.Pairwise.nil⟩⟩

end Founded

end Session

/-- Evaluation is steady. -/
def Contract.steady : Contract where
  inv _ := True
  rel := Session.Steady
  raises _ _ := True
  lenient := False
  refl := .refl
  trans := .trans
  inv_of_rel _ _ := trivial
  raises_of_rel _ _ _ := trivial
  move _ hmove := .of_move hmove
  raises_failure _ _ := trivial
  raises_overflow _ _ := trivial
  raises_exhausted _ := trivial
  raises_returning _ _ _ := trivial
  inv_mark _ _ := trivial
  unmark {s _ _ _ _} _ hp hrel := (((Session.Steady.refl s).update _ hp).trans hrel).update _ hp
  keep {s _ _ _ _} _ _ hp _ hrel :=
    ((((Session.Steady.refl s).update _ hp).trans hrel).update _ hp).update _ hp
  raises_unmark _ _ _ := trivial
  inv_enter _ _ _ _ _ := trivial
  leave _ _ _ hrel := ⟨congrArg List.tail hrel.stack, hrel.options, hrel.size, hrel.idle⟩
  raises_leave _ _ _ _ _ := trivial

theorem Contract.steady_loopBlind : steady.LoopBlind := fun _ _ _ _ => .of_promises rfl rfl rfl

/-! ## Tasks -/

namespace Task

/-- The environment in which the task is carried out. -/
def env : Task → EnvId
  | evaluate _ env => env
  | apply _ _ _ env _ => env
  | loop _ env _ _ _ => env

/-- What is left to be done of a task in its own environment.  Applying a closure leaves nothing,
    since its body is evaluated in another one, and most builtins get values. -/
noncomputable def weight : Task → Nat
  | evaluate expr _ => 2 * sizeOf expr
  | apply (.builtin _ (.special _)) call _ _ _ => 2 * sizeOf (Value.call call)
  | apply (.builtin _ (.eager (.arithmetic _))) _ _ _ _ => 1
  | apply _ _ _ _ _ => 0
  | loop _ _ _ _ body => 2 * sizeOf body + 1

/-- Whether the task applies a special form or an arithmetic operator as the method of an operator:
    then and only then is there one binding beside the arguments. -/
def redispatches : Task → Bool
  | apply (.builtin _ (.special _)) _ _ _ [_] => true
  | apply (.builtin _ (.eager (.arithmetic _))) _ _ _ [_] => true
  | _ => false

/-- Of whatever is applied as the method of an operator nothing is left to be done, unless it
    dispatches again. -/
theorem redispatches_or_weight_eq_zero (method : Value) (call : Call) (args : ArgList)
    (env : EnvId) (entry : Symbol × Value) :
    (apply method call args env [entry]).redispatches = true ∨
      (apply method call args env [entry]).weight = 0 := by
  cases method with
  | builtin identity b =>
    cases b with
    | special form => exact .inl rfl
    | eager builtin =>
      cases builtin with
      | arithmetic op => exact .inl rfl
      | _ => exact .inr rfl
  | _ => exact .inr rfl

end Task

theorem sizeOf_function_lt (call : Call) : sizeOf call.function < sizeOf (Value.call call) := by
  obtain ⟨identity, function, args⟩ := call
  simp only [Value.call.sizeOf_spec, CallOf.mk.sizeOf_spec]
  omega

theorem sizeOf_arg_lt {call : Call} {arg : Arg Value} (h : arg ∈ call.args) :
    sizeOf arg.value < sizeOf (Value.call call) := by
  obtain ⟨identity, function, args⟩ := call
  obtain ⟨tag, value⟩ := arg
  have hmem : sizeOf (Arg.mk tag value) < sizeOf args := List.sizeOf_lt_of_mem h
  rw [Arg.mk.sizeOf_spec] at hmem
  simp only [Value.call.sizeOf_spec, CallOf.mk.sizeOf_spec]
  omega

/-! ## Budgets -/

/-- What the tasks inside an evaluation may use up: room on the stack, the promises among the
    `bound` oldest that are idle, callers, and the task itself. -/
structure Budget where
  depth : Nat
  maxDepth : Nat
  bound : Nat
  idle : Nat
  rank : Nat
  weight : Nat

namespace Budget

/-- Room on the stack counts most, then promises, then callers, and the task counts least. -/
def Less : Budget → Budget → Prop :=
  InvImage (Prod.Lex (· < ·) (Prod.Lex (· < ·) (Prod.Lex (· < ·) (· < ·))))
    fun b => (b.maxDepth - b.depth, b.idle, b.rank, b.weight)

theorem wellFounded_less : WellFounded Less :=
  InvImage.wf _ (wellFounded_lt.prod_lex (wellFounded_lt.prod_lex
    (wellFounded_lt.prod_lex wellFounded_lt)))

/-- The arguments are smaller than the task, also as the body of a loop. -/
def Affords (b : Budget) (args : ArgList) : Prop :=
  ∀ arg ∈ args, 2 * sizeOf arg.value + 1 < b.weight

theorem affords_call {b : Budget} {call : Call} (h : 2 * sizeOf (Value.call call) ≤ b.weight) :
    b.Affords call.args := fun arg harg => by
  have hlt := sizeOf_arg_lt harg
  omega

end Budget

namespace Session

variable {s t : Session} {b : Budget} {env : EnvId}

/-- There is no more to be used up in the session than the budget says. -/
structure Meets (s : Session) (b : Budget) : Prop where
  founded : s.Founded
  depth : s.depth = b.depth
  maxDepth : s.options.maxCallDepth = b.maxDepth
  bound : b.bound ≤ s.promises.cells.size
  idle : s.promises.idleBelow b.bound ≤ b.idle

theorem Meets.safe (h : s.Meets b) : s.Safe := h.founded.safe

theorem Meets.later (h : s.Meets b) (honward : s.Onward t) (hsteady : s.Steady t) : t.Meets b where
  founded := h.founded.onward honward hsteady
  depth := hsteady.depth.trans h.depth
  maxDepth := (congrArg Options.maxCallDepth hsteady.options).trans h.maxDepth
  bound := h.bound.trans hsteady.size
  idle := (PromiseStore.idleBelow_le fun i hi => hsteady.idle i (hi.trans_le h.bound)).trans h.idle

/-- The environment is there, and no further in than the budget says. -/
structure Within (s : Session) (b : Budget) (env : EnvId) : Prop where
  live : s.heap.contains env = true
  rank : s.rank env ≤ b.rank

end Session

end CallByNeed
