import CallByNeed.Proofs.Heap.Marking
import CallByNeed.Proofs.Run
import Mathlib.Data.List.Nodup

/-!
# A collection frees what cannot be reached

Sweeping empties the slots whose frames are not marked and takes all marks back.
So after a collection the frames that are there are the ones that were there and
can be reached from the roots, each as it was (`WellFormed.frame?_collect`).
This holds of every heap that the operations on heaps make, for all of them keep
a heap well-formed (`Heap.Built.wellFormed`, `Heap.Built.collect_spec`).
-/

namespace CallByNeed

namespace Slot

@[simp] theorem marked_swept (slot : Slot) : slot.swept.marked = false := by
  unfold swept
  split <;> rfl

theorem generation_swept {slot : Slot} (hmarked : slot.marked = true) :
    slot.swept.generation = slot.generation := by
  simp [swept, isGarbage, hmarked]

/-- Only a marked slot still has its frame. -/
theorem frame_swept (slot : Slot) :
    slot.swept.frame = if slot.marked then slot.frame else none := by
  cases hmarked : slot.marked <;> cases hframe : slot.frame <;>
    simp [swept, isGarbage, hmarked, hframe]

end Slot

namespace Heap

variable {h h' m : Heap} {id : EnvId} {store : PromiseStore} {start : EnvId → Prop}
  {roots : List EnvId} {values : List Value} {freed : Nat}

/-! ## Sweeping -/

theorem getElem?_sweep (m : Heap) (i : Nat) :
    m.sweep.2.slots[i]? = (m.slots[i]?).map Slot.swept := by
  simp [sweep]

theorem frame?_sweep {f : Frame} :
    m.sweep.2.frame? id = some f ↔ m.IsMarked id ∧ m.frame? id = some f := by
  simp only [frame?_eq_some_iff, getElem?_sweep, Option.map_eq_some_iff, IsMarked]
  constructor
  · rintro ⟨_, ⟨slot, hslot, rfl⟩, hgen, hframe⟩
    rw [Slot.frame_swept] at hframe
    split at hframe
    · rename_i hmarked
      -- a marked slot keeps its generation, so the reference is the same
      rw [Slot.generation_swept hmarked] at hgen
      exact ⟨⟨slot, hslot, hgen, by simp [hframe], hmarked⟩, slot, hslot, hgen, hframe⟩
    · cases hframe
  · rintro ⟨⟨slot, hslot, hgen, -, hmarked⟩, other, hother, -, hframe⟩
    obtain rfl : slot = other := Option.some.inj (hslot.symm.trans hother)
    refine ⟨slot.swept, ⟨slot, hslot, rfl⟩, ?_, ?_⟩
    · rw [Slot.generation_swept hmarked, hgen]
    · rw [Slot.frame_swept, if_pos hmarked, hframe]

theorem mem_garbage {i : Nat} :
    i ∈ m.garbage ↔ ∃ slot, m.slots[i]? = some slot ∧ slot.isGarbage = true := by
  simp only [garbage, List.mem_filter, List.mem_range, Option.any_eq_true]
  constructor
  · exact And.right
  · rintro ⟨slot, hslot, hgarbage⟩
    exact ⟨(Array.getElem?_eq_some_iff.1 hslot).1, slot, hslot, hgarbage⟩

theorem length_garbage (m : Heap) : m.garbage.length = m.slots.countP Slot.isGarbage := by
  have hslots : (List.range m.slots.size).map (fun i => m.slots[i]?) = m.slots.toList.map some := by
    refine List.ext_getElem? fun i => ?_
    by_cases hi : i < m.slots.size <;> simp [hi]
  calc m.garbage.length
    _ = ((List.range m.slots.size).map (fun i => m.slots[i]?)).countP (·.any Slot.isGarbage) := by
      rw [garbage, ← List.countP_eq_length_filter, List.countP_map]
      rfl
    _ = m.slots.countP Slot.isGarbage := by
      rw [hslots, List.countP_map, ← Array.countP_toList]
      rfl

theorem occupied_unmark (m : Heap) : m.unmark.occupied = m.occupied := by
  rw [occupied, unmark, Array.countP_map]
  rfl

/-- Every frame is kept or freed. -/
theorem occupied_sweep (m : Heap) : m.sweep.2.occupied + m.sweep.1 = m.occupied := by
  have hkept : m.sweep.2.occupied =
      m.slots.toList.countP fun slot => slot.frame.isSome && slot.marked := by
    simp only [occupied, sweep, Array.countP_map, Array.countP_toList]
    refine Array.countP_congr fun slot _ => ?_
    cases hmarked : slot.marked <;> simp [Slot.frame_swept, hmarked]
  have hfreed : m.sweep.1 =
      m.slots.toList.countP fun slot => slot.frame.isSome && !slot.marked := by
    simp only [sweep, length_garbage, ← Array.countP_toList]
    rfl
  -- the frames are the marked and the unmarked ones
  have hall :=
    m.slots.toList.countP_eq_countP_filter_add (fun slot => slot.frame.isSome) Slot.marked
  rw [List.countP_filter, List.countP_filter] at hall
  rw [hkept, hfreed, occupied, ← Array.countP_toList, hall]

theorem wellFormed_sweep (hwf : m.unmark.WellFormed) : m.sweep.2.WellFormed := by
  have hempty {i : Nat} : i ∈ m.free ↔ ∃ slot, m.slots[i]? = some slot ∧ slot.frame = none := by
    refine hwf.free.trans ?_
    simp only [unmark, Array.getElem?_map, Option.map_eq_some_iff]
    constructor
    · rintro ⟨_, ⟨slot, hslot, rfl⟩, hframe⟩
      exact ⟨slot, hslot, hframe⟩
    · rintro ⟨slot, hslot, hframe⟩
      exact ⟨_, ⟨slot, hslot, rfl⟩, hframe⟩
  constructor
  case unmarked =>
    intro i slot hslot
    rw [getElem?_sweep] at hslot
    obtain ⟨old, -, rfl⟩ := Option.map_eq_some_iff.1 hslot
    exact old.marked_swept
  case nodup =>
    refine List.nodup_append'.2 ⟨?_, hwf.nodup, ?_⟩
    · exact List.nodup_reverse.2 (List.nodup_range.filter _)
    · -- garbage has a frame, a free slot has none
      intro i hgarbage hfree
      obtain ⟨slot, hslot, hgarbage⟩ := mem_garbage.1 (List.mem_reverse.1 hgarbage)
      obtain ⟨other, hother, hframe⟩ := hempty.1 hfree
      obtain rfl : slot = other := Option.some.inj (hslot.symm.trans hother)
      simp [Slot.isGarbage, hframe] at hgarbage
  case free =>
    intro i
    simp only [sweep, List.mem_append, List.mem_reverse, mem_garbage, hempty, Array.getElem?_map,
      Option.map_eq_some_iff]
    constructor
    · rintro (⟨slot, hslot, hgarbage⟩ | ⟨slot, hslot, hframe⟩)
      · exact ⟨_, ⟨slot, hslot, rfl⟩, by simp [Slot.swept, hgarbage]⟩
      · exact ⟨_, ⟨slot, hslot, rfl⟩, by simp [Slot.frame_swept, hframe]⟩
    · rintro ⟨_, ⟨slot, hslot, rfl⟩, hframe⟩
      cases hgarbage : slot.isGarbage with
      | true => exact .inl ⟨slot, hslot, hgarbage⟩
      | false => exact .inr ⟨slot, hslot, by simpa [Slot.swept, hgarbage] using hframe⟩
  case live =>
    have hlive : m.live = m.unmark.occupied := hwf.live
    have hoccupied := m.occupied_unmark
    have hcount := m.occupied_sweep
    have hswept : m.sweep.2.live = m.live - m.sweep.1 := rfl
    omega

/-! ## Collections -/

/-- From where a collection starts: its roots, and what its values mention. -/
def StartsFrom (store : PromiseStore) (roots : List EnvId) (values : List Value) (id : EnvId) :
    Prop :=
  id ∈ roots ∨ ∃ v ∈ values, v.Mentions store id

theorem WellFormed.marking_collect (hwf : h.WellFormed)
    (hcollect : h.collect store roots values = some (freed, h')) :
    ∃ m, h.Marking store (StartsFrom store roots values) [] m ∧ m.sweep = (freed, h') := by
  obtain ⟨links, hlinks, hcollect⟩ := Option.bind_eq_some_iff.1 hcollect
  obtain ⟨m, hmark, hsweep⟩ := Option.bind_eq_some_iff.1 hcollect
  refine ⟨m, hwf.marking_mark (fun id => ?_) hmark, Option.some.inj hsweep⟩
  rw [List.mem_append, mem_valuesLinks hlinks, StartsFrom]

theorem WellFormed.collect (hwf : h.WellFormed)
    (hcollect : h.collect store roots values = some (freed, h')) : h'.WellFormed := by
  obtain ⟨m, hm, hsweep⟩ := hwf.marking_collect hcollect
  have hswept := wellFormed_sweep (hm.unmark ▸ hwf)
  rwa [hsweep] at hswept

/-- After a collection the frames are those that were there and can be reached, each as it was. -/
theorem WellFormed.frame?_collect (hwf : h.WellFormed)
    (hcollect : h.collect store roots values = some (freed, h')) {f : Frame} :
    h'.frame? id = some f ↔
      h.frame? id = some f ∧ h.Reaches store (StartsFrom store roots values) id := by
  obtain ⟨m, hm, hsweep⟩ := hwf.marking_collect hcollect
  have hswept : m.sweep.2.frame? id = some f ↔ m.IsMarked id ∧ m.frame? id = some f := frame?_sweep
  rw [hsweep, hm.isMarked_iff, hm.frame?] at hswept
  rw [hswept]
  constructor
  · rintro ⟨⟨-, hreached⟩, hf⟩
    exact ⟨hf, hreached⟩
  · rintro ⟨hf, hreached⟩
    exact ⟨⟨contains_of_frame? hf, hreached⟩, hf⟩

theorem WellFormed.occupied_collect (hwf : h.WellFormed)
    (hcollect : h.collect store roots values = some (freed, h')) :
    h'.occupied + freed = h.occupied := by
  obtain ⟨m, hm, hsweep⟩ := hwf.marking_collect hcollect
  have hcount := m.occupied_sweep
  rw [hsweep, ← m.occupied_unmark, hm.unmark] at hcount
  exact hcount

/-! ## Heaps made by operations -/

/-- A heap that comes about from the empty one by the operations on heaps.  Binding a name, to a
    value or to a default expression, and assigning it around an environment all change one
    frame. -/
inductive Built : Heap → Prop where
  | empty : Built empty
  | insert {h : Heap} (hbuilt : Built h) (f : Frame) : Built (h.insert f).2
  | modify {h : Heap} (hbuilt : Built h) (id : EnvId) (change : Frame → Frame) :
    Built (HeapM.modifyFrame id change h).2
  | collect {h h' : Heap} (hbuilt : Built h) {store : PromiseStore} {roots : List EnvId}
    {values : List Value} {freed : Nat}
    (hcollect : h.collect store roots values = some (freed, h')) : Built h'

theorem Built.wellFormed (hbuilt : h.Built) : h.WellFormed := by
  induction hbuilt with
  | empty => exact wellFormed_empty
  | insert _ f ih => exact ih.insert f
  | @modify h _ id change ih =>
    rw [SessionM.modifyFrame_run]
    split
    · exact ih.updateSlot _ _
    · exact ih
  | collect _ hcollect ih => exact ih.collect hcollect

/-- A collection frees exactly the frames that cannot be reached from its roots and values.  The
    others are under the same references what they were, what referred to a freed frame is stale, no
    mark is left, and the answer is the number of frames freed. -/
theorem Built.collect_spec (hbuilt : h.Built)
    (hcollect : h.collect store roots values = some (freed, h')) :
    (∀ id, h'.contains id = true ↔
      h.contains id = true ∧ h.Reaches store (StartsFrom store roots values) id) ∧
    (∀ id f, h'.frame? id = some f → h.frame? id = some f) ∧
    (∀ id, h.contains id = true → h'.contains id = false →
      h'.frame id = .error (.staleEnvironment id) ∧
      ∀ change, HeapM.modifyFrame id change h' = (.error (.staleEnvironment id), h')) ∧
    (∀ slot ∈ h'.slots, slot.marked = false) ∧
    h.live = h.occupied ∧ h'.live = h'.occupied ∧ freed = h.live - h'.live ∧ h'.live ≤ h.live := by
  have hwf := hbuilt.wellFormed
  have hwf' := hwf.collect hcollect
  have hframe (id : EnvId) (f : Frame) : h'.frame? id = some f ↔
      h.frame? id = some f ∧ h.Reaches store (StartsFrom store roots values) id :=
    hwf.frame?_collect hcollect
  have hcount := hwf.occupied_collect hcollect
  refine ⟨fun id => ?_, fun id f hf => ((hframe id f).1 hf).1, fun id _ hfreed => ?_, ?_, hwf.live,
    hwf'.live, ?_, ?_⟩
  · simp only [contains, Option.isSome_iff_exists, hframe, exists_and_right]
  · have hnone : h'.frame? id = none := by simpa [contains] using hfreed
    refine ⟨by simp [frame, hnone], fun change => ?_⟩
    rw [SessionM.modifyFrame_run, hfreed]
    rfl
  · intro slot hslot
    obtain ⟨i, hi⟩ := Array.mem_iff_getElem?.1 hslot
    exact hwf'.unmarked hi
  · rw [hwf.live, hwf'.live]
    omega
  · rw [hwf.live, hwf'.live]
    omega

/-- A root frame, and inside it a frame that binds a closure defined in itself.  Collecting with the
    root alone frees the second one. -/
theorem Built.collect_spec_cycle :
    let h₁ := (Heap.empty.insert (.empty none)).2
    let h₂ := (h₁.insert (.empty (some ⟨0, 0⟩))).2
    let h₃ := (HeapM.modifyFrame ⟨1, 0⟩
      (·.set ⟨"self"⟩ (.closure ⟨⟨0⟩, [], .null, ⟨1, 0⟩⟩)) h₂).2
    ∃ h₄, h₃.collect .empty [⟨0, 0⟩] [] = some (1, h₄) ∧ h₄.live = 1 ∧
      (h₄.contains ⟨1, 0⟩ = true ↔
        h₃.contains ⟨1, 0⟩ = true ∧ h₃.Reaches .empty (StartsFrom .empty [⟨0, 0⟩] []) ⟨1, 0⟩) := by
  intro h₁ h₂ h₃
  have hbuilt : h₃.Built := .modify (.insert (.insert .empty _) _) _ _
  obtain ⟨h₄, hcollect, hlive⟩ : ∃ h₄, h₃.collect .empty [⟨0, 0⟩] [] = some (1, h₄) ∧ h₄.live = 1 :=
    ⟨_, rfl, rfl⟩
  exact ⟨h₄, hcollect, hlive, (hbuilt.collect_spec hcollect).1 _⟩

end Heap

end CallByNeed
