import CallByNeed.Proofs.Heap.Collection
import CallByNeed.Proofs.Heap.Layers
import Mathlib.Algebra.Group.Nat.Defs

/-!
# References are used once

The operations on heaps (`Heap.Operation`) hand out references, and a history
(`Heap.History`) keeps account of those handed out and of how often each slot was
freed.  Every operation turns each slot in one of three ways: its frame stays, a
frame is put into it, or it is freed and its generation goes up by one
(`Heap.Turns`).  So the generation of a slot is the number of times it was freed,
and a reference is up to date as long as the two agree
(`History.Sound`, kept by every operation in `History.Sound.record`).  If no slot is
freed so often that its generation begins anew, no reference is handed out twice,
and one whose frame was freed is stale forever (`History.references_used_once`).
-/

namespace CallByNeed.Heap

variable {h h' : Heap} {id : EnvId} {i : Nat}

/-! ## Operations -/

/-- An operation on a heap.  Filling a frame that was just made is done by `bind`, too. -/
inductive Operation where
  | allocate (parent : Option EnvId)
  | insert (f : Frame)
  | bind (env : EnvId) (name : Symbol) (value : Value)
  | bindDefault (env : EnvId) (name : Symbol) (value : Value)
  | assignNonLocal (env : EnvId) (name : Symbol) (value : Value) (global : EnvId)
  | collect (store : PromiseStore) (roots : List EnvId) (values : List Value)

/-- The reference that an operation hands out, if it does, and the heap afterwards.  An operation
    that fails leaves the heap it has come to; a collection that meets a promise which contains
    itself has no result. -/
def Operation.perform : Operation → Heap → Option (Option EnvId × Heap)
  | allocate parent, h => some (some (h.allocate parent).1, (h.allocate parent).2)
  | insert f, h => some (some (h.insert f).1, (h.insert f).2)
  | bind env name value, h => some (none, (HeapM.bind env name value h).2)
  | bindDefault env name value, h => some (none, (HeapM.bindDefault env name value h).2)
  | assignNonLocal env name value global, h =>
    some (none, (HeapM.assignNonLocal env name value global h).2)
  | collect store roots values, h => do
    let (_, h) ← h.collect store roots values
    return (none, h)

/-- Whether there is a frame in a slot. -/
def fills (h : Heap) (i : Nat) : Bool := (h.slots[i]?).any fun slot => slot.frame.isSome

/-- A run of operations so far: the heap, the references handed out, the latest first, and how often
    each slot was freed. -/
structure History where
  heap : Heap
  issued : List EnvId
  freed : Nat → Nat

namespace History

def start : History := ⟨.empty, [], fun _ => 0⟩

/-- The history goes on with an operation that has handed out `handed` and left `heap`.  A slot was
    freed if there was a frame in it and is none any more. -/
def record (s : History) (handed : Option EnvId) (heap : Heap) : History where
  heap := heap
  issued := handed.toList ++ s.issued
  freed i := if s.heap.fills i && !heap.fills i then s.freed i + 1 else s.freed i

def step? (s : History) (op : Operation) : Option History := do
  let (handed, heap) ← op.perform s.heap
  return s.record handed heap

def run? : List Operation → History → Option History
  | [], s => some s
  | op :: rest, s => do run? rest (← s.step? op)

end History

/-! ## What becomes of a slot -/

theorem fills_iff : h.fills i = true ↔ ∃ slot, h.slots[i]? = some slot ∧ slot.frame.isSome := by
  simp [fills, Option.any_eq_true]

theorem fills_of_contains (hid : h.contains id = true) : h.fills id.index = true := by
  obtain ⟨slot, hslot, -, hframe⟩ := contains_iff.1 hid
  exact fills_iff.2 ⟨slot, hslot, hframe⟩

/-- No slot is lost, and the generation of a slot goes up exactly if it is freed.  A slot that is
    new has a frame and generation zero. -/
structure Turns (h h' : Heap) : Prop where
  old : ∀ {i : Nat} {slot : Slot}, h.slots[i]? = some slot → ∃ slot', h'.slots[i]? = some slot' ∧
    slot'.generation =
      if h.fills i && !h'.fills i then slot.generation + 1 else slot.generation
  new : ∀ {i : Nat} {slot : Slot}, h.slots[i]? = none → h'.slots[i]? = some slot →
    slot.generation = 0 ∧ slot.frame.isSome = true

theorem Turns.refl (h : Heap) : h.Turns h where
  old hslot := ⟨_, hslot, by simp⟩
  new hnone hslot := by cases hnone.symm.trans hslot

theorem fills_updateSlot (h : Heap) (index : Nat) (change : Frame → Frame) (i : Nat) :
    (h.updateSlot index change).fills i = h.fills i := by
  simp only [fills, updateSlot, Array.getElem?_modify]
  split <;> cases h.slots[i]? <;> simp

/-- No frame goes away. -/
theorem fills_insert (hfull : h.fills i = true) (f : Frame) : (h.insert f).2.fills i = true := by
  obtain ⟨slot, hslot, hframe⟩ := fills_iff.1 hfull
  have hid : h.contains ⟨i, slot.generation⟩ = true := contains_iff.2 ⟨slot, hslot, rfl, hframe⟩
  exact fills_of_contains (contains_insert hid f)

theorem turns_updateSlot (h : Heap) (index : Nat) (change : Frame → Frame) :
    h.Turns (h.updateSlot index change) := by
  constructor
  case old =>
    intro i slot hslot
    refine ⟨if index = i then { slot with frame := slot.frame.map change } else slot, ?_, ?_⟩
    · by_cases hindex : index = i <;>
        simp [updateSlot, Array.getElem?_modify, hindex, hslot]
    · rw [fills_updateSlot]
      split <;> simp
  case new =>
    intro i slot hnone hslot
    simp [updateSlot, Array.getElem?_modify, hnone] at hslot

theorem turns_insert (h : Heap) (f : Frame) : h.Turns (h.insert f).2 := by
  -- an insertion empties no slot
  have hfreed (i : Nat) : (h.fills i && !(h.insert f).2.fills i) = false := by
    cases hfull : h.fills i with
    | false => rfl
    | true => rw [fills_insert hfull]; rfl
  constructor
  case old =>
    intro i slot hslot
    rw [hfreed, if_neg Bool.false_ne_true]
    cases hfree : h.free with
    | nil =>
      obtain ⟨hi, -⟩ := Array.getElem?_eq_some_iff.1 hslot
      rw [insert_of_full hfree]
      exact ⟨slot, by simpa [Array.getElem?_push, Nat.ne_of_lt hi] using hslot, rfl⟩
    | cons index rest =>
      rw [insert_of_free hfree]
      refine ⟨if index = i then { slot with frame := some f } else slot, ?_, by split <;> rfl⟩
      by_cases hindex : index = i <;> simp [Array.getElem?_modify, hindex, hslot]
  case new =>
    intro i slot hnone hslot
    cases hfree : h.free with
    | nil =>
      rw [insert_of_full hfree, Array.getElem?_push] at hslot
      split at hslot
      · cases hslot
        exact ⟨rfl, rfl⟩
      · cases hnone.symm.trans hslot
    | cons index rest =>
      rw [insert_of_free hfree] at hslot
      simp [Array.getElem?_modify, hnone] at hslot

theorem turns_sweep (m : Heap) : m.unmark.Turns m.sweep.2 := by
  -- the slots that a sweep empties are those with garbage
  have hfills (i : Nat) : (m.unmark.fills i && !m.sweep.2.fills i) =
      (m.slots[i]?).any Slot.isGarbage := by
    simp only [fills, getElem?_sweep, unmark, Array.getElem?_map]
    cases m.slots[i]? with
    | none => rfl
    | some slot => cases hmarked : slot.marked <;> cases hframe : slot.frame <;>
        simp [Slot.frame_swept, Slot.isGarbage, hmarked, hframe]
  constructor
  case old =>
    intro i slot hslot
    rw [hfills, getElem?_sweep]
    obtain ⟨marked, hmarked, rfl⟩ :=
      Option.map_eq_some_iff.1 ((Array.getElem?_map ..).symm.trans hslot)
    refine ⟨marked.swept, by rw [hmarked]; rfl, ?_⟩
    simp only [hmarked, Option.any_some, Slot.swept]
    split <;> rfl
  case new =>
    intro i slot hnone hslot
    rw [getElem?_sweep] at hslot
    obtain ⟨marked, hmarked, -⟩ := Option.map_eq_some_iff.1 hslot
    simp [unmark, hmarked] at hnone

/-! ## What an operation does -/

theorem assignNonLocal_run (env : EnvId) (name : Symbol) (value : Value) (global : EnvId)
    (h : Heap) :
    HeapM.assignNonLocal env name value global h =
      match h.nonLocalTarget env name global with
      | .error e => (.error e, h)
      | .ok target =>
        if h.contains target then (.ok target, h.updateSlot target.index (·.set name value))
        else (.error (.staleEnvironment target), h) := by
  have hassign : HeapM.assignNonLocal env name value global h =
      ExceptT.bindCont (fun target => HeapM.bind target name value >>= fun _ => pure target)
        (h.nonLocalTarget env name global) h := rfl
  rw [hassign]
  cases h.nonLocalTarget env name global with
  | error e => rfl
  | ok target =>
    change StateT.bind (HeapM.modifyFrame target (·.set name value)) (ExceptT.bindCont _) h = _
    simp only [StateT.bind, SessionM.modifyFrame_run]
    split <;> rfl

/-- What an operation that leaves `h'` has done: it kept the heap in order, handed a reference out
    only for a slot that it filled, and made no other reference good. -/
structure Performed (h : Heap) (handed : Option EnvId) (h' : Heap) : Prop where
  wellFormed : h'.WellFormed
  turns : h.Turns h'
  filled : ∀ id ∈ handed, h.fills id.index = false ∧ h'.contains id = true
  contains : ∀ id, h'.contains id = true → h.contains id = true ∨ handed = some id

theorem WellFormed.performed_insert (hwf : h.WellFormed) (f : Frame) :
    h.Performed (some (h.insert f).1) (h.insert f).2 where
  wellFormed := hwf.insert f
  turns := turns_insert h f
  filled := by
    intro id hid
    obtain rfl := Option.some.inj hid
    refine ⟨?_, contains_of_frame? (hwf.frame?_insert_self _)⟩
    cases hfree : h.free with
    | nil =>
      rw [insert_of_full hfree]
      simp [fills]
    | cons index rest =>
      rw [insert_of_free hfree]
      obtain ⟨old, hold, hempty⟩ := hwf.free.1 (hfree ▸ List.mem_cons_self : index ∈ h.free)
      simp [fills, hold, hempty]
  contains := by
    intro id hid
    rw [Heap.contains, hwf.frame?_insert] at hid
    split at hid
    · rename_i hnew
      exact .inr (congrArg some hnew.symm)
    · exact .inl hid

theorem WellFormed.performed_updateSlot (hwf : h.WellFormed) (hid : h.contains id = true)
    (change : Frame → Frame) : h.Performed none (h.updateSlot id.index change) where
  wellFormed := hwf.updateSlot _ _
  turns := turns_updateSlot ..
  filled _ hnone := nomatch hnone
  contains := by
    intro other hother
    by_cases hsame : other = id
    · exact .inl (hsame ▸ hid)
    · exact .inl (by rwa [Heap.contains, frame?_updateSlot_of_ne _ hid hsame] at hother)

theorem WellFormed.performed_nothing (hwf : h.WellFormed) : h.Performed none h where
  wellFormed := hwf
  turns := .refl h
  filled _ hnone := nomatch hnone
  contains _ := .inl

theorem WellFormed.performed_modifyFrame (hwf : h.WellFormed) (env : EnvId)
    (change : Frame → Frame) : h.Performed none (HeapM.modifyFrame env change h).2 := by
  rw [SessionM.modifyFrame_run]
  split
  · rename_i henv
    exact hwf.performed_updateSlot henv change
  · exact hwf.performed_nothing

theorem WellFormed.performed_assignNonLocal (hwf : h.WellFormed) (env : EnvId) (name : Symbol)
    (value : Value) (global : EnvId) :
    h.Performed none (HeapM.assignNonLocal env name value global h).2 := by
  rw [assignNonLocal_run]
  split
  · exact hwf.performed_nothing
  · split
    · rename_i htarget
      exact hwf.performed_updateSlot htarget _
    · exact hwf.performed_nothing

theorem WellFormed.performed_collect {store : PromiseStore} {roots : List EnvId}
    {values : List Value} {count : Nat} (hwf : h.WellFormed)
    (hcollect : h.collect store roots values = some (count, h')) : h.Performed none h' where
  wellFormed := hwf.collect hcollect
  turns := by
    obtain ⟨m, hm, hsweep⟩ := hwf.marking_collect hcollect
    have hturns := turns_sweep m
    rwa [hsweep, hm.unmark] at hturns
  filled _ hnone := nomatch hnone
  contains := by
    intro id hid
    obtain ⟨f, hf⟩ := Option.isSome_iff_exists.1 hid
    exact .inl (Option.isSome_iff_exists.2 ⟨f, ((hwf.frame?_collect hcollect).1 hf).1⟩)

theorem WellFormed.performed {op : Operation} {handed : Option EnvId} (hwf : h.WellFormed)
    (hperform : op.perform h = some (handed, h')) : h.Performed handed h' := by
  cases op with
  | allocate parent =>
    cases hperform
    exact hwf.performed_insert _
  | insert f =>
    cases hperform
    exact hwf.performed_insert f
  | bind env name value =>
    cases hperform
    exact hwf.performed_modifyFrame ..
  | bindDefault env name value =>
    cases hperform
    exact hwf.performed_modifyFrame ..
  | assignNonLocal env name value global =>
    cases hperform
    exact hwf.performed_assignNonLocal ..
  | collect store roots values =>
    obtain ⟨⟨count, swept⟩, hcollect, hperform⟩ := Option.bind_eq_some_iff.1 hperform
    cases hperform
    exact hwf.performed_collect hcollect

/-! ## The account of a history -/

namespace History

variable {s t : History} {op : Operation} {ops : List Operation}

/-- A run goes on from what its first operation recorded. -/
theorem run?_cons (hrun : s.run? (op :: ops) = some t) :
    ∃ handed heap, op.perform s.heap = some (handed, heap) ∧
      (s.record handed heap).run? ops = some t := by
  obtain ⟨mid, hstep, hrun⟩ := Option.bind_eq_some_iff.1 hrun
  obtain ⟨⟨handed, heap⟩, hperform, hrecord⟩ := Option.bind_eq_some_iff.1 hstep
  cases hrecord
  exact ⟨handed, heap, hperform, hrun⟩

/-- The account agrees with the heap.  A reference carries the number of times its slot had been
    freed when it was handed out, and the slot was freed since then if it is empty. -/
structure Sound (s : History) : Prop where
  wellFormed : s.heap.WellFormed
  generation : ∀ {i : Nat} {slot : Slot}, s.heap.slots[i]? = some slot →
    slot.generation = .ofNat (s.freed i)
  untouched : ∀ {i : Nat}, s.heap.slots[i]? = none → s.freed i = 0
  issued : ∀ id ∈ s.issued, id.generation.toNat ≤ s.freed id.index
  outdated : ∀ id ∈ s.issued, s.heap.fills id.index = false →
    id.generation.toNat < s.freed id.index
  /-- References that are good were handed out. -/
  contained : ∀ id, s.heap.contains id = true → id ∈ s.issued

theorem sound_start : start.Sound where
  wellFormed := wellFormed_empty
  generation hslot := by simp [start, Heap.empty] at hslot
  untouched _ := rfl
  issued _ hid := nomatch hid
  outdated _ hid := nomatch hid
  contained id hid := by simp [start, Heap.empty, Heap.contains, frame?] at hid

theorem freed_le_record (s : History) (handed : Option EnvId) (heap : Heap) (i : Nat) :
    s.freed i ≤ (s.record handed heap).freed i := by
  simp only [record]
  split <;> omega

theorem Sound.record {handed : Option EnvId} {heap : Heap} (hs : s.Sound)
    (hperformed : s.heap.Performed handed heap) : (s.record handed heap).Sound := by
  -- the generation of a slot goes up exactly when the count of its frees does
  have hgeneration {i : Nat} {slot : Slot} (hslot : heap.slots[i]? = some slot) :
      slot.generation = .ofNat ((s.record handed heap).freed i) := by
    simp only [History.record]
    cases hold : s.heap.slots[i]? with
    | none =>
      rw [(hperformed.turns.new hold hslot).1, hs.untouched hold, fills, hold]
      rfl
    | some old =>
      obtain ⟨slot', hslot', hturned⟩ := hperformed.turns.old hold
      obtain rfl : slot = slot' := Option.some.inj (hslot.symm.trans hslot')
      rw [hturned, hs.generation hold]
      split
      · exact (UInt32.ofNat_add ..).symm
      · rfl
  have huntouched {i : Nat} (hnone : heap.slots[i]? = none) : s.heap.slots[i]? = none := by
    cases hold : s.heap.slots[i]? with
    | none => rfl
    | some old =>
      obtain ⟨slot', hslot', -⟩ := hperformed.turns.old hold
      cases hnone.symm.trans hslot'
  constructor
  case wellFormed => exact hperformed.wellFormed
  case generation => exact hgeneration
  case untouched =>
    intro i hnone
    have hnone := huntouched hnone
    simp [History.record, fills, hnone, hs.untouched hnone]
  case issued =>
    intro id hid
    obtain hid | hid := List.mem_append.1 hid
    · -- the slot of a new reference counts as often as it was freed
      obtain ⟨slot, hslot, hgen, -⟩ :=
        contains_iff.1 (hperformed.filled id (Option.mem_toList.1 hid)).2
      rw [← hgen, hgeneration hslot, UInt32.toNat_ofNat']
      exact Nat.mod_le ..
    · exact Nat.le_trans (hs.issued id hid) (freed_le_record ..)
  case outdated =>
    intro id hid hempty
    obtain hid | hid := List.mem_append.1 hid
    · have hfull := fills_of_contains (hperformed.filled id (Option.mem_toList.1 hid)).2
      cases hfull.symm.trans hempty
    -- an old reference to a slot that is empty now: it was empty before, or it was freed just now
    · have hissued := hs.issued id hid
      have houtdated := hs.outdated id hid
      have hempty : heap.fills id.index = false := hempty
      simp only [History.record, hempty]
      cases hfull : s.heap.fills id.index with
      | false => simpa using houtdated hfull
      | true => simpa using Nat.lt_succ_of_le hissued
  case contained =>
    intro id hid
    obtain hid | hid := hperformed.contains id hid
    · exact List.mem_append_right _ (hs.contained id hid)
    · exact List.mem_append_left _ (Option.mem_toList.2 hid)

theorem Sound.run (hs : s.Sound) (hrun : s.run? ops = some t) : t.Sound := by
  induction ops generalizing s with
  | nil =>
    cases hrun
    exact hs
  | cons op rest ih =>
    obtain ⟨handed, heap, hperform, hrun⟩ := run?_cons hrun
    exact ih (hs.record (hs.wellFormed.performed hperform)) hrun

theorem freed_le_run (hrun : s.run? ops = some t) (i : Nat) : s.freed i ≤ t.freed i := by
  induction ops generalizing s with
  | nil =>
    cases hrun
    exact Nat.le_refl _
  | cons op rest ih =>
    obtain ⟨handed, heap, -, hrun⟩ := run?_cons hrun
    exact Nat.le_trans (freed_le_record ..) (ih hrun)

/-- One operation frees a slot at most once. -/
theorem run_freed_le (hrun : s.run? ops = some t) (i : Nat) :
    t.freed i ≤ s.freed i + ops.length := by
  induction ops generalizing s with
  | nil =>
    cases hrun
    exact Nat.le_refl _
  | cons op rest ih =>
    obtain ⟨handed, heap, -, hrun⟩ := run?_cons hrun
    have hrest := ih hrun
    have hfirst : (s.record handed heap).freed i ≤ s.freed i + 1 := by
      simp only [record]
      split <;> omega
    rw [List.length_cons]
    omega

theorem issued_subset_run (hrun : s.run? ops = some t) : s.issued ⊆ t.issued := by
  induction ops generalizing s with
  | nil =>
    cases hrun
    exact List.Subset.refl _
  | cons op rest ih =>
    obtain ⟨handed, heap, -, hrun⟩ := run?_cons hrun
    exact List.Subset.trans (List.subset_append_right ..) (ih hrun)

/-! ## As long as no generation begins anew -/

theorem Sound.toNat_generation {slot : Slot} (hs : s.Sound) (hbound : s.freed i < 2 ^ 32)
    (hslot : s.heap.slots[i]? = some slot) : slot.generation.toNat = s.freed i := by
  rw [hs.generation hslot, UInt32.toNat_ofNat', Nat.mod_eq_of_lt hbound]

/-- A reference is stale exactly if its slot was freed since it was handed out. -/
theorem Sound.contains_eq_false_iff (hs : s.Sound) (hbound : s.freed id.index < 2 ^ 32)
    (hid : id ∈ s.issued) :
    s.heap.contains id = false ↔ id.generation.toNat < s.freed id.index := by
  constructor
  · intro hstale
    cases hfull : s.heap.fills id.index with
    | false => exact hs.outdated id hid hfull
    | true =>
      obtain ⟨slot, hslot, hframe⟩ := fills_iff.1 hfull
      -- had the slot not been freed since, the frame there now would be the one of this reference
      refine Nat.lt_of_le_of_ne (hs.issued id hid) fun hsame => ?_
      have hgen : slot.generation = id.generation :=
        UInt32.toNat_inj.1 ((hs.toNat_generation hbound hslot).trans hsame.symm)
      cases hstale.symm.trans (contains_iff.2 ⟨slot, hslot, hgen, hframe⟩)
  · intro hpassed
    refine Bool.eq_false_iff.2 fun hlive => ?_
    obtain ⟨slot, hslot, hgen, -⟩ := contains_iff.1 hlive
    have hcount := hs.toNat_generation hbound hslot
    rw [hgen] at hcount
    omega

theorem Sound.nodup_record {handed : Option EnvId} {heap : Heap} (hs : s.Sound)
    (hperformed : s.heap.Performed handed heap) (hnodup : s.issued.Nodup)
    (hbound : ∀ i, (s.record handed heap).freed i < 2 ^ 32) :
    (s.record handed heap).issued.Nodup := by
  cases handed with
  | none => exact hnodup
  | some id =>
    refine List.nodup_cons.2 ⟨fun hid => ?_, hnodup⟩
    -- an earlier reference to the empty slot is behind its count, the new one is not
    obtain ⟨hempty, hgood⟩ := hperformed.filled id rfl
    have hpassed := Nat.lt_of_lt_of_le (hs.outdated id hid hempty)
      (freed_le_record s (some id) heap id.index)
    have hstale := ((hs.record hperformed).contains_eq_false_iff (hbound _) (List.mem_cons_self)).2
      hpassed
    cases hstale.symm.trans hgood

theorem Sound.nodup_run (hs : s.Sound) (hnodup : s.issued.Nodup) (hrun : s.run? ops = some t)
    (hbound : ∀ i, t.freed i < 2 ^ 32) : t.issued.Nodup := by
  induction ops generalizing s with
  | nil =>
    cases hrun
    exact hnodup
  | cons op rest ih =>
    obtain ⟨handed, heap, hperform, hrun⟩ := run?_cons hrun
    have hperformed := hs.wellFormed.performed hperform
    have hmid (i : Nat) : (s.record handed heap).freed i < 2 ^ 32 :=
      Nat.lt_of_le_of_lt (freed_le_run hrun i) (hbound i)
    exact ih (hs.record hperformed) (hs.nodup_record hperformed hnodup hmid) hrun

/-- A reference that has become stale stays so. -/
theorem Sound.stale_run (hs : s.Sound) (hrun : s.run? ops = some t)
    (hbound : ∀ i, t.freed i < 2 ^ 32) (hid : id ∈ s.issued) (hstale : s.heap.contains id = false) :
    t.heap.contains id = false := by
  have hfreed := freed_le_run hrun id.index
  have hpassed := (hs.contains_eq_false_iff (Nat.lt_of_le_of_lt hfreed (hbound _)) hid).1 hstale
  exact ((hs.run hrun).contains_eq_false_iff (hbound _) (issued_subset_run hrun hid)).2
    (Nat.lt_of_lt_of_le hpassed hfreed)

end History

/-! ## Stale references -/

theorem contains_of_find {env id : EnvId} {name : Symbol} {value : Value}
    (hfound : h.find env name = .ok (some (id, value))) : h.contains id = true := by
  obtain ⟨binding, howner, -⟩ := owner?_of_find hfound
  obtain ⟨f, hf, -⟩ := frame?_of_owner? howner
  exact contains_of_frame? hf

theorem contains_of_chain {env id : EnvId} {ids : List EnvId} (hchain : h.chain env = .ok ids)
    (hmem : id ∈ ids) : h.contains id = true := by
  simp only [chain] at hchain
  split at hchain
  · cases hchain
  · cases hchain
    obtain ⟨seen, hseen, rfl⟩ := List.mem_map.1 hmem
    exact contains_of_frame? (frame?_of_mem_scopeWithin hseen)

theorem contains_of_assignNonLocal {env id global : EnvId} {name : Symbol} {value : Value}
    (hwritten : (HeapM.assignNonLocal env name value global h).1 = .ok id) :
    h.contains id = true := by
  rw [assignNonLocal_run] at hwritten
  split at hwritten
  · cases hwritten
  · split at hwritten
    · rename_i hlive
      cases hwritten
      exact hlive
    · cases hwritten

/-- No operation gets to a frame by the reference, and no look-up answers it. -/
structure Lost (h : Heap) (id : EnvId) : Prop where
  contains : h.contains id = false
  frame : h.frame id = .error (.staleEnvironment id)
  modifyFrame : ∀ change, HeapM.modifyFrame id change h = (.error (.staleEnvironment id), h)
  bind : ∀ name value, HeapM.bind id name value h = (.error (.staleEnvironment id), h)
  bindDefault : ∀ name value,
    HeapM.bindDefault id name value h = (.error (.staleEnvironment id), h)
  assignNonLocal : ∀ name value global,
    HeapM.assignNonLocal id name value global h = (.error (.staleEnvironment id), h)
  find : ∀ name, h.find id name = .error (.staleEnvironment id)
  chain : h.chain id = .error (.staleEnvironment id)
  not_written : ∀ env name value global,
    (HeapM.assignNonLocal env name value global h).1 ≠ .ok id
  not_found : ∀ env name value, h.find env name ≠ .ok (some (id, value))
  not_enclosing : ∀ env ids, h.chain env = .ok ids → id ∉ ids

theorem lost_of_stale (hstale : h.contains id = false) : h.Lost id := by
  have hnone := frame?_eq_none_iff.2 hstale
  have hframe : h.frame id = .error (.staleEnvironment id) := by simp [frame, hnone]
  have hscope : h.scope id = ⟨[], some id⟩ := by simp [scope, scopeFrom, scopeWithin, hnone]
  have hmodify (change : Frame → Frame) :
      HeapM.modifyFrame id change h = (.error (.staleEnvironment id), h) := by
    rw [SessionM.modifyFrame_run, hstale]
    rfl
  constructor
  case contains => exact hstale
  case frame => exact hframe
  case modifyFrame => exact hmodify
  case bind => exact fun _ _ => hmodify _
  case bindDefault => exact fun _ _ => hmodify _
  case assignNonLocal =>
    intro name value global
    have htarget : h.nonLocalTarget id name global = .error (.staleEnvironment id) := by
      simp only [nonLocalTarget, parent, hframe]
      rfl
    rw [assignNonLocal_run, htarget]
  case find =>
    intro name
    simp only [find, hscope]
    rfl
  case chain => simp only [chain, hscope]
  -- whatever a look-up answers is there
  case not_written =>
    intro env name value global hwritten
    cases hstale.symm.trans (contains_of_assignNonLocal hwritten)
  case not_found =>
    intro env name value hfound
    cases hstale.symm.trans (contains_of_find hfound)
  case not_enclosing =>
    intro env ids hchain hmem
    cases hstale.symm.trans (contains_of_chain hchain hmem)

/-- In every run of operations that frees no slot 2 ^ 32 times, the free slots are the empty ones,
    each once, the frames are counted right, no reference is handed out twice, the good ones were
    handed out, and one that has become stale is never good again. -/
theorem History.references_used_once {before after : List Operation} {s t : History}
    (hs : start.run? before = some s) (ht : s.run? after = some t)
    (hbound : ∀ i, t.freed i < 2 ^ 32) :
    t.heap.free.Nodup ∧
    (∀ i, i ∈ t.heap.free ↔ ∃ slot, t.heap.slots[i]? = some slot ∧ slot.frame = none) ∧
    t.heap.live = t.heap.occupied ∧
    t.issued.Nodup ∧
    (∀ id, t.heap.contains id = true → id ∈ t.issued) ∧
    ∀ id ∈ s.issued, s.heap.contains id = false → t.heap.Lost id := by
  have hsound := sound_start.run hs
  have hsound' := hsound.run ht
  have hbound' (i : Nat) : s.freed i < 2 ^ 32 := Nat.lt_of_le_of_lt (freed_le_run ht i) (hbound i)
  have hnodup := sound_start.nodup_run List.nodup_nil hs hbound'
  refine ⟨hsound'.wellFormed.nodup, fun i => hsound'.wellFormed.free, hsound'.wellFormed.live,
    hsound.nodup_run hnodup ht hbound, hsound'.contained, fun id hid hstale => ?_⟩
  exact lost_of_stale (hsound.stale_run ht hbound hid hstale)

/-- The frame inside a root frame is freed, and its slot is used again. -/
theorem History.references_used_once_reused :
    ∃ s t, start.run? [.allocate none, .allocate (some ⟨0, 0⟩), .collect .empty [⟨0, 0⟩] []] =
        some s ∧
      s.run? [.allocate (some ⟨0, 0⟩)] = some t ∧
      t.issued = [⟨1, 1⟩, ⟨1, 0⟩, ⟨0, 0⟩] ∧ t.heap.contains ⟨1, 1⟩ = true ∧
      t.heap.Lost ⟨1, 0⟩ := by
  obtain ⟨s, t, hs, ht, hfreed, hstale, hissued, hgood⟩ : ∃ s t,
      start.run? [.allocate none, .allocate (some ⟨0, 0⟩), .collect .empty [⟨0, 0⟩] []] = some s ∧
      s.run? [.allocate (some ⟨0, 0⟩)] = some t ∧
      s.issued = [⟨1, 0⟩, ⟨0, 0⟩] ∧ s.heap.contains ⟨1, 0⟩ = false ∧
      t.issued = [⟨1, 1⟩, ⟨1, 0⟩, ⟨0, 0⟩] ∧ t.heap.contains ⟨1, 1⟩ = true :=
    ⟨_, _, rfl, rfl, by decide +kernel, by decide +kernel, by decide +kernel, by decide +kernel⟩
  have hbound (i : Nat) : t.freed i < 2 ^ 32 := by
    have hbefore : s.freed i ≤ 0 + 3 := run_freed_le hs i
    have hafter : t.freed i ≤ s.freed i + 1 := run_freed_le ht i
    omega
  obtain ⟨-, -, -, -, -, hlost⟩ := references_used_once hs ht hbound
  exact ⟨s, t, hs, ht, hissued, hgood, hlost _ (by simp [hfreed]) hstale⟩

end CallByNeed.Heap
