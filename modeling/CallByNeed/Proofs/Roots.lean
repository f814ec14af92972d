import CallByNeed.Proofs.Bindings
import CallByNeed.Proofs.Heap.Marking
import CallByNeed.Proofs.Reachable

/-!
# Roots stay

A collection keeps the frames that it starts from (`contains_of_collect`), and
nothing else removes a frame.  So the base environment is there in every
reachable session, and the kernels are the ones that the session began with
(`Session.Reachable.rooted`).
-/

namespace CallByNeed

/-! ## The base environment -/

namespace Session

/-- The kernels and the base environment are the same, and its frame is there if it was there. -/
structure KeepsBase (s t : Session) : Prop where
  kernels : t.kernels = s.kernels
  baseEnv : t.baseEnv = s.baseEnv
  namespaces : t.namespaces.baseEnv = s.namespaces.baseEnv
  live : s.heap.contains s.baseEnv = true → t.heap.contains s.baseEnv = true

namespace KeepsBase

variable {s t u : Session}

theorem of_heap (hkernels : t.kernels = s.kernels) (hbase : t.baseEnv = s.baseEnv)
    (hnamespaces : t.namespaces.baseEnv = s.namespaces.baseEnv) (hheap : t.heap = s.heap) :
    KeepsBase s t :=
  ⟨hkernels, hbase, hnamespaces, fun h => by rw [hheap]; exact h⟩

theorem trans (h₁ : KeepsBase s t) (h₂ : KeepsBase t u) : KeepsBase s u := by
  refine ⟨h₂.kernels.trans h₁.kernels, h₂.baseEnv.trans h₁.baseEnv,
    h₂.namespaces.trans h₁.namespaces, fun hlive => ?_⟩
  have hthere := h₂.live
  rw [h₁.baseEnv] at hthere
  exact hthere (h₁.live hlive)

theorem of_move (h : s.Move t) : KeepsBase s t := by
  cases h with
  | write name binding live =>
    exact ⟨rfl, rfl, rfl, fun h => (contains_bound live name binding s.baseEnv).trans h⟩
  | allocate parent => exact ⟨rfl, rfl, rfl, fun h => Heap.contains_insert h _⟩
  | load name =>
    unfold Namespaces.load
    cases s.namespaces.get? name with
    | none => exact ⟨rfl, rfl, rfl, fun h => Heap.contains_insert h _⟩
    | some ns => exact .of_heap rfl rfl rfl rfl
  | collect held hcollect =>
    exact ⟨rfl, rfl, rfl, fun h => Heap.contains_of_collect hcollect h List.mem_cons_self⟩
  | _ => exact .of_heap rfl rfl rfl rfl

end KeepsBase

end Session

/-- The kernels stay what they are, and so does the base environment, which is the one of the
    namespaces and is not freed. -/
def Contract.rooted (kernels : KernelTable) : Contract where
  inv s := s.kernels = kernels ∧ s.namespaces.baseEnv = s.baseEnv ∧
    s.heap.contains s.baseEnv = true
  rel := Session.KeepsBase
  raises _ _ := True
  lenient := False
  refl _ := .of_heap rfl rfl rfl rfl
  trans := .trans
  inv_of_rel hinv hrel := by
    obtain ⟨hkernels, hnamespaces, hlive⟩ := hinv
    refine ⟨hrel.kernels.trans hkernels, ?_, ?_⟩
    · rw [hrel.namespaces, hnamespaces, hrel.baseEnv]
    · rw [hrel.baseEnv]
      exact hrel.live hlive
  raises_of_rel _ _ _ := trivial
  move _ hmove := .of_move hmove
  raises_failure _ _ := trivial
  raises_overflow _ _ := trivial
  raises_exhausted _ := trivial
  raises_returning _ _ _ := trivial
  inv_mark hinv _ := hinv
  unmark _ _ hrel := ⟨hrel.kernels, hrel.baseEnv, hrel.namespaces, hrel.live⟩
  keep _ _ _ _ hrel := ⟨hrel.kernels, hrel.baseEnv, hrel.namespaces, hrel.live⟩
  raises_unmark _ _ _ := trivial
  inv_enter parent _ hinv _ _ := ⟨hinv.1, hinv.2.1, Heap.contains_insert hinv.2.2 _⟩
  leave _ _ _ hrel := ⟨hrel.kernels, hrel.baseEnv, hrel.namespaces, hrel.live⟩
  raises_leave _ _ _ _ _ := trivial

namespace Contract

theorem rooted_loopBlind (kernels : KernelTable) : (rooted kernels).LoopBlind :=
  fun _ _ _ _ => .of_heap rfl rfl rfl rfl

theorem rooted_host {kernels : KernelTable} {s t : Session} (hinv : (rooted kernels).inv s)
    (hstep : s.HostStep t) : (rooted kernels).inv t := by
  cases hstep with
  | move h => exact (rooted kernels).inv_of_rel hinv (.of_move h)
  | hold preserved => exact hinv
  | publish ns => exact hinv
  | recount stats => exact hinv

end Contract

/-- In every reachable session the kernels are those that it began with, and the base environment is
    there. -/
theorem Session.Reachable.rooted {options : Options} {kernels : KernelTable} {s : Session}
    (h : s.Reachable options kernels) :
    s.kernels = kernels ∧ s.namespaces.baseEnv = s.baseEnv ∧ s.heap.contains s.baseEnv = true :=
  (Contract.rooted_loopBlind kernels).closed.inv_of_reachable id ⟨rfl, rfl, rfl⟩
    Contract.rooted_host h

end CallByNeed
