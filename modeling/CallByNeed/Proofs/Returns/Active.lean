import CallByNeed.Proofs.Bindings
import CallByNeed.Proofs.Heap.Collection
import CallByNeed.Proofs.Reachable

/-!
# A return aims at an active invocation

The invocations on the stack have frames of their own, which are there as long
as they are active; a new frame has a reference that none of them has.  A return
is raised for an active invocation only, and the stack at the end of an action is
the one from its beginning.  So the invocation that a return aims at was active
when the evaluation began that ends in it (`Contract.activeReturns`).
-/

namespace CallByNeed

namespace Session

/-- The stack is the same, the heap is still well-formed and the frames of the invocations are still
    there. -/
structure KeepsStack (s t : Session) : Prop where
  stack : t.stack = s.stack
  wellFormed : s.heap.WellFormed → t.heap.WellFormed
  live : ∀ i ∈ s.stack, s.heap.contains i.env = true → t.heap.contains i.env = true

namespace KeepsStack

variable {s t u : Session}

theorem of_heap (hstack : t.stack = s.stack) (hheap : t.heap = s.heap) : KeepsStack s t :=
  ⟨hstack, fun hwf => hheap ▸ hwf, fun _ _ hlive => hheap ▸ hlive⟩

theorem trans (h₁ : KeepsStack s t) (h₂ : KeepsStack t u) : KeepsStack s u := by
  constructor
  case stack => rw [h₂.stack, h₁.stack]
  case wellFormed => exact fun hwf => h₂.wellFormed (h₁.wellFormed hwf)
  case live =>
    intro i hi hlive
    exact h₂.live i (h₁.stack ▸ hi) (h₁.live i hi hlive)

theorem of_move (h : s.Move t) : KeepsStack s t := by
  cases h with
  | write name binding live =>
    exact ⟨rfl, fun hwf => hwf.updateSlot _ _, fun _ _ h => (contains_bound live ..).trans h⟩
  | allocate parent =>
    exact ⟨rfl, fun hwf => hwf.allocate parent, fun _ _ h => Heap.contains_insert h _⟩
  | load name =>
    unfold Namespaces.load
    cases s.namespaces.get? name with
    | none => exact ⟨rfl, fun hwf => hwf.allocate _, fun _ _ h => Heap.contains_insert h _⟩
    | some ns => exact .of_heap rfl rfl
  | collect held hcollect =>
    refine ⟨rfl, fun hwf => hwf.collect hcollect, fun i hi h => ?_⟩
    -- the frames of invocations that are going on are roots
    have henv : i.env ∈ s.rootEnvs := by
      simp only [rootEnvs, List.mem_cons, List.mem_append, List.mem_flatMap]
      exact .inr (.inr (.inr ⟨i, hi, List.mem_cons_self⟩))
    exact Heap.contains_of_collect hcollect h henv
  | _ => exact .of_heap rfl rfl

end KeepsStack

/-- The active invocations have different frames, which are there. -/
structure Staffed (s : Session) : Prop where
  wellFormed : s.heap.WellFormed
  nodup : (s.stack.map Invocation.env).Nodup
  live : ∀ i ∈ s.stack, s.heap.contains i.env = true

theorem Staffed.of_keeps {s t : Session} (h : s.Staffed) (hkeeps : s.KeepsStack t) :
    t.Staffed := by
  constructor
  case wellFormed => exact hkeeps.wellFormed h.wellFormed
  case nodup => rw [hkeeps.stack]; exact h.nodup
  case live =>
    rw [hkeeps.stack]
    exact fun i hi => hkeeps.live i hi (h.live i hi)

/-- An invocation with a new frame may be put on the stack. -/
theorem Staffed.enter {s : Session} (h : s.Staffed) (parent : Option EnvId) (i : Invocation)
    (henv : i.env = (s.heap.allocate parent).1) :
    ({ s with heap := (s.heap.allocate parent).2 }.enter i).Staffed := by
  have hnew : s.heap.contains i.env = false := by
    rw [henv, Heap.contains, Heap.allocate, h.wellFormed.frame?_new]
    rfl
  constructor
  case wellFormed => exact h.wellFormed.allocate parent
  case nodup =>
    refine List.nodup_cons.2 ⟨fun hmem => ?_, h.nodup⟩
    -- the frame of an older invocation was there before, the new one was not
    obtain ⟨j, hj, hsame⟩ := List.mem_map.1 hmem
    have hlive := h.live j hj
    rw [hsame, hnew] at hlive
    cases hlive
  case live =>
    intro j hj
    obtain rfl | hj := List.mem_cons.1 hj
    · show (s.heap.allocate parent).2.contains j.env = true
      rw [henv, Heap.contains, Heap.allocate, h.wellFormed.frame?_insert_self]
      rfl
    · exact Heap.contains_insert (h.live j hj) _

end Session

/-- The stack stays as it is, and a return aims at an invocation on it. -/
def Contract.activeReturns : Contract where
  inv := Session.Staffed
  rel := Session.KeepsStack
  raises s e := ∀ target value, e = .returning target value → ∃ i ∈ s.stack, i.env = target
  lenient := False
  refl _ := .of_heap rfl rfl
  trans := .trans
  inv_of_rel := .of_keeps
  raises_of_rel _ hrel hraises target value he := by
    obtain ⟨i, hi, henv⟩ := hraises target value he
    exact ⟨i, hrel.stack ▸ hi, henv⟩
  move _ hmove := .of_move hmove
  raises_failure _ _ _ _ he := nomatch he
  raises_overflow _ _ _ _ he := nomatch he
  raises_exhausted _ _ _ he := nomatch he
  raises_returning _ hactive hrel target value he := by
    cases he
    obtain ⟨i, hi⟩ := Option.isSome_iff_exists.1 hactive
    exact ⟨i, hrel.stack ▸ List.mem_of_find?_eq_some hi, by simpa using List.find?_some hi⟩
  inv_mark hinv _ := ⟨hinv.wellFormed, hinv.nodup, hinv.live⟩
  unmark _ _ hrel := ⟨hrel.stack, hrel.wellFormed, hrel.live⟩
  keep _ _ _ _ hrel := ⟨hrel.stack, hrel.wellFormed, hrel.live⟩
  raises_unmark _ _ hraises := hraises
  inv_enter parent i hinv henv _ := hinv.enter parent i henv
  leave i _ _ hrel :=
    ⟨congrArg List.tail hrel.stack, hrel.wellFormed, fun j hj => hrel.live j (.tail _ hj)⟩
  raises_leave i _ _ hown hraises target value he := by
    obtain ⟨j, hj, henv⟩ := hraises target value he
    obtain rfl | hj := List.mem_cons.1 hj
    · exact absurd (henv ▸ he) (hown value)
    · exact ⟨j, hj, henv⟩

namespace Contract

theorem activeReturns_loopBlind : activeReturns.LoopBlind := fun _ _ _ _ => .of_heap rfl rfl

theorem activeReturns_host {s t : Session} (hinv : activeReturns.inv s) (hstep : s.HostStep t) :
    activeReturns.inv t := by
  cases hstep with
  | move h => exact hinv.of_keeps (.of_move h)
  | hold preserved => exact ⟨hinv.wellFormed, hinv.nodup, hinv.live⟩
  | publish ns => exact ⟨hinv.wellFormed, hinv.nodup, hinv.live⟩
  | recount stats => exact ⟨hinv.wellFormed, hinv.nodup, hinv.live⟩

end Contract

variable {options : Options} {kernels : KernelTable} {s : Session}

theorem Session.staffed_initial (options : Options) (kernels : KernelTable) :
    (Session.initial options kernels).Staffed := by
  constructor
  case wellFormed => exact (Heap.wellFormed_empty.insert Session.baseFrame).allocate _
  case nodup => exact List.nodup_nil
  case live => exact fun _ hi => nomatch hi

theorem Session.Reachable.staffed (h : s.Reachable options kernels) : s.Staffed :=
  Contract.activeReturns_loopBlind.closed.inv_of_reachable id (staffed_initial _ _)
    Contract.activeReturns_host h

/-- Evaluations leave the stack as it was, and a return that ends one aims at an invocation that was
    on it. -/
theorem Session.Reachable.returns_active (h : s.Reachable options kernels) (fuel : Nat)
    (entry : Evaluator.Entry) :
    (entry.run (evaluator fuel) s).2.stack = s.stack ∧
    ∀ target value, (entry.run (evaluator fuel) s).1 = .error (.returning target value) →
      ∃ i ∈ s.stack, i.env = target := by
  have hclosed := Contract.activeReturns_loopBlind.closed
  obtain ⟨-, hrel, hraises⟩ :=
    Contract.agree_entry (hclosed.agree_evaluator fuel) entry s h.staffed
  exact ⟨hrel.stack, fun target value he => hraises _ he target value rfl⟩

end CallByNeed
