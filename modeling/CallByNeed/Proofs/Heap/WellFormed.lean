import CallByNeed.Heap.Collect

/-!
# Well-formed heaps

Between collections no slot is marked, the stack of free slots holds every empty
slot once, and the number of frames is the one that is kept count of
(`Heap.WellFormed`).  In such a heap a new frame gets a reference that no frame
had, and nothing else changes (`WellFormed.frame?_insert`).
-/

namespace CallByNeed.Heap

variable {h : Heap} {id : EnvId}

/-! ## Frames that are there -/

theorem contains_iff : h.contains id = true ↔
    ∃ slot, h.slots[id.index]? = some slot ∧ slot.generation = id.generation ∧
      slot.frame.isSome = true := by
  unfold contains frame?
  cases h.slots[id.index]? with
  | none => simp
  | some slot => by_cases hgen : slot.generation = id.generation <;> simp [hgen]

theorem frame?_eq_some_iff {f : Frame} : h.frame? id = some f ↔
    ∃ slot, h.slots[id.index]? = some slot ∧ slot.generation = id.generation ∧
      slot.frame = some f := by
  unfold frame?
  cases h.slots[id.index]? with
  | none => simp
  | some slot => by_cases hgen : slot.generation = id.generation <;> simp [hgen]

theorem contains_of_frame? {f : Frame} (hf : h.frame? id = some f) : h.contains id = true :=
  Option.isSome_iff_exists.2 ⟨f, hf⟩

theorem frame?_eq_none_iff : h.frame? id = none ↔ h.contains id = false :=
  (Option.isSome_eq_false_iff.trans Option.isNone_iff_eq_none).symm

theorem contains_insert (hid : h.contains id = true) (f : Frame) :
    (h.insert f).2.contains id = true := by
  obtain ⟨slot, hslot, hgen, hframe⟩ := contains_iff.1 hid
  unfold insert
  cases h.free with
  | nil =>
    obtain ⟨hindex, -⟩ := Array.getElem?_eq_some_iff.1 hslot
    refine contains_iff.2 ⟨slot, ?_, hgen, hframe⟩
    simpa [Array.getElem?_push, Nat.ne_of_lt hindex] using hslot
  | cons index rest =>
    -- nothing is known about the list of free slots here; should it name the slot of `id`,
    -- then that slot has a frame afterwards all the same
    by_cases hindex : index = id.index
    · refine contains_iff.2 ⟨{ slot with frame := some f }, ?_, hgen, rfl⟩
      simp [Array.getElem?_modify, hindex, hslot]
    · refine contains_iff.2 ⟨slot, ?_, hgen, hframe⟩
      simp [Array.getElem?_modify, hindex, hslot]

/-! ## Well-formedness -/

/-- The number of frames. -/
def occupied (h : Heap) : Nat := h.slots.countP fun slot => slot.frame.isSome

structure WellFormed (h : Heap) : Prop where
  unmarked : ∀ {i : Nat} {slot : Slot}, h.slots[i]? = some slot → slot.marked = false
  nodup : h.free.Nodup
  /-- The free slots are the empty ones. -/
  free : ∀ {i : Nat}, i ∈ h.free ↔ ∃ slot, h.slots[i]? = some slot ∧ slot.frame = none
  live : h.live = h.occupied

theorem wellFormed_empty : WellFormed empty := by
  constructor
  case unmarked => simp [empty]
  case nodup => exact List.nodup_nil
  case free => simp [empty]
  case live => rfl

/-- Changing one slot changes a number of slots by what this slot counts. -/
theorem countP_modify {slots : Array Slot} {i : Nat} {slot : Slot} (hslot : slots[i]? = some slot)
    (p : Slot → Bool) (f : Slot → Slot) :
    (slots.modify i f).countP p + (if p slot then 1 else 0) =
      slots.countP p + (if p (f slot) then 1 else 0) := by
  obtain ⟨hi, hslot⟩ := Array.getElem?_eq_some_iff.1 hslot
  have hset : slots.modify i f = slots.set i (f slot) := by
    refine Array.ext_getElem? fun j => ?_
    by_cases hj : i = j
    · subst hj
      rw [Array.getElem?_modify, if_pos rfl, Array.getElem?_eq_getElem hi, hslot]
      simp
    · simp [Array.getElem?_modify, hj]
  -- the slot is one of those counted, so the subtraction is exact
  have hle : (if p slots[i] then 1 else 0) ≤ slots.countP p := Array.boole_getElem_le_countP hi
  rw [hset, Array.countP_set]
  rw [hslot] at hle ⊢
  omega

/-! ## Changing a frame -/

theorem WellFormed.updateSlot (hwf : h.WellFormed) (index : Nat) (change : Frame → Frame) :
    (h.updateSlot index change).WellFormed := by
  have hslots {i : Nat} {slot : Slot} (hslot : (h.updateSlot index change).slots[i]? = some slot) :
      ∃ old, h.slots[i]? = some old ∧ slot.marked = old.marked ∧
        (slot.frame = none ↔ old.frame = none) := by
    simp only [Heap.updateSlot, Array.getElem?_modify] at hslot
    split at hslot
    · obtain ⟨old, hold, rfl⟩ := Option.map_eq_some_iff.1 hslot
      exact ⟨old, hold, rfl, Option.map_eq_none_iff⟩
    · exact ⟨slot, hslot, rfl, .rfl⟩
  constructor
  case unmarked =>
    intro i slot hslot
    obtain ⟨old, hold, hmarked, -⟩ := hslots hslot
    rw [hmarked, hwf.unmarked hold]
  case nodup => exact hwf.nodup
  case free =>
    intro i
    refine hwf.free.trans ?_
    constructor
    · rintro ⟨old, hold, hempty⟩
      by_cases hindex : index = i
      · exact ⟨{ old with frame := old.frame.map change },
          by simp [Heap.updateSlot, Array.getElem?_modify, hindex, hold], by simp [hempty]⟩
      · exact ⟨old, by simp [Heap.updateSlot, Array.getElem?_modify, hindex, hold], hempty⟩
    · rintro ⟨slot, hslot, hempty⟩
      obtain ⟨old, hold, -, hframe⟩ := hslots hslot
      exact ⟨old, hold, hframe.1 hempty⟩
  case live =>
    -- which slots are empty does not change, so neither does their number
    have hmap : (h.updateSlot index change).slots.map (·.frame.isSome) =
        h.slots.map (·.frame.isSome) := by
      refine Array.ext_getElem? fun i => ?_
      by_cases hindex : index = i
      · simp [Heap.updateSlot, Array.getElem?_modify, hindex, Function.comp_def]
      · simp [Heap.updateSlot, Array.getElem?_modify, hindex]
    have hcount (slots : Array Slot) : slots.countP (fun slot => slot.frame.isSome) =
        (slots.map (·.frame.isSome)).countP id := by
      rw [Array.countP_map]
      rfl
    calc (h.updateSlot index change).live
      _ = h.occupied := hwf.live
      _ = (h.updateSlot index change).occupied := by rw [occupied, occupied, hcount, hcount, hmap]

/-! ## A new frame -/

theorem insert_of_free {index : Nat} {rest : List Nat} (hfree : h.free = index :: rest)
    (f : Frame) :
    h.insert f = (⟨index, h.generationOf index⟩,
      { h with
        live := h.live + 1
        allocatedSinceCollect := h.allocatedSinceCollect + 1
        free := rest
        slots := h.slots.modify index fun slot => { slot with frame := some f } }) := by
  simp only [insert, hfree]

theorem insert_of_full (hfree : h.free = []) (f : Frame) :
    h.insert f = (⟨h.slots.size, 0⟩,
      { h with
        live := h.live + 1
        allocatedSinceCollect := h.allocatedSinceCollect + 1
        slots := h.slots.push ⟨0, some f, false⟩ }) := by
  simp only [insert, hfree]

theorem WellFormed.insert (hwf : h.WellFormed) (f : Frame) : (h.insert f).2.WellFormed := by
  cases hfree : h.free with
  -- without a free slot the frame goes to a new one at the end
  | nil =>
    rw [insert_of_full hfree]
    constructor
    case unmarked =>
      intro i slot hslot
      simp only [Array.getElem?_push] at hslot
      split at hslot
      · cases hslot
        rfl
      · exact hwf.unmarked hslot
    case nodup => exact hwf.nodup
    case free =>
      intro i
      refine hwf.free.trans (exists_congr fun slot => and_congr_left fun hempty => ?_)
      rw [Array.getElem?_push]
      split
      · rename_i hi
        subst hi
        simp only [Array.getElem?_size, reduceCtorEq, Option.some.injEq, false_iff]
        rintro rfl
        cases hempty
      · rfl
    case live =>
      rw [occupied, Array.countP_push, hwf.live]
      rfl
  -- otherwise it goes to the first free slot, which leaves the list
  | cons index rest =>
    rw [insert_of_free hfree]
    obtain ⟨old, hold, hempty⟩ := hwf.free.1 (hfree ▸ List.mem_cons_self : index ∈ h.free)
    have hnodup := hwf.nodup
    rw [hfree, List.nodup_cons] at hnodup
    constructor
    case unmarked =>
      intro i slot hslot
      simp only [Array.getElem?_modify] at hslot
      split at hslot
      · obtain ⟨old, hold, rfl⟩ := Option.map_eq_some_iff.1 hslot
        show old.marked = false
        exact hwf.unmarked hold
      · exact hwf.unmarked hslot
    case nodup => exact hnodup.2
    case free =>
      intro i
      simp only [Array.getElem?_modify]
      by_cases hindex : index = i
      · subst hindex
        simp [hnodup.1, hold]
      · rw [if_neg hindex, ← hwf.free, hfree, List.mem_cons, or_iff_right (Ne.symm hindex)]
    case live =>
      have hcount := countP_modify hold (fun slot => slot.frame.isSome)
        fun slot => { slot with frame := some f }
      simp only [hempty, Option.isSome_none, Option.isSome_some, Bool.false_eq_true, if_false,
        if_true, Nat.add_zero] at hcount
      simp only [occupied, hcount, hwf.live]

theorem WellFormed.allocate (hwf : h.WellFormed) (parent : Option EnvId) :
    (h.allocate parent).2.WellFormed :=
  hwf.insert _

/-- A new frame has a reference that no frame had, and every other frame is as before. -/
theorem WellFormed.frame?_insert (hwf : h.WellFormed) (f : Frame) (id : EnvId) :
    (h.insert f).2.frame? id = if id = (h.insert f).1 then some f else h.frame? id := by
  obtain ⟨index, generation⟩ := id
  cases hfree : h.free with
  | nil =>
    rw [insert_of_full hfree]
    by_cases hindex : index = h.slots.size
    · subst hindex
      by_cases hgen : generation = 0
      · simp [frame?, hgen]
      · simp [frame?, hgen, Ne.symm hgen]
    · simp [frame?, Array.getElem?_push, hindex]
  | cons first rest =>
    rw [insert_of_free hfree]
    obtain ⟨old, hold, hempty⟩ := hwf.free.1 (hfree ▸ List.mem_cons_self : first ∈ h.free)
    by_cases hindex : index = first
    · subst hindex
      by_cases hgen : generation = old.generation
      · simp [frame?, generationOf, Array.getElem?_modify, hold, hgen]
      · simp [frame?, generationOf, Array.getElem?_modify, hold, hgen, Ne.symm hgen]
    · simp [frame?, Array.getElem?_modify, Ne.symm hindex, hindex]

theorem WellFormed.frame?_insert_self (hwf : h.WellFormed) (f : Frame) :
    (h.insert f).2.frame? (h.insert f).1 = some f := by
  rw [hwf.frame?_insert, if_pos rfl]

/-- The reference of a new frame stood for nothing before. -/
theorem WellFormed.frame?_new (hwf : h.WellFormed) (f : Frame) :
    h.frame? (h.insert f).1 = none := by
  cases hfree : h.free with
  | nil =>
    rw [insert_of_full hfree]
    simp [frame?]
  | cons index rest =>
    rw [insert_of_free hfree]
    obtain ⟨old, hold, hempty⟩ := hwf.free.1 (hfree ▸ List.mem_cons_self : index ∈ h.free)
    simp [frame?, hold, hempty]

end CallByNeed.Heap
