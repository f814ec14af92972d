import CallByNeed.Proofs.Heap.Parts
import CallByNeed.Proofs.Heap.WellFormed

/-!
# Marking

What can be reached in a heap is said without marks (`Heap.Reaches`).  Marking
changes nothing but marks, and from one frame of the frontier to the next it
keeps an invariant (`Heap.Marking`): what is marked or on the frontier can be
reached, and what a marked frame mentions is marked or on the frontier.  Each
round but the last marks a slot, so the frontier is empty at the end, and then
exactly the frames that can be reached are marked (`Marking.isMarked_iff`).
-/

namespace CallByNeed.Heap

variable {h h' m m' : Heap} {id : EnvId} {store : PromiseStore} {start : EnvId → Prop}

/-- What can be reached from the environments with `start` through the frames that are there. -/
inductive Reaches (h : Heap) (store : PromiseStore) (start : EnvId → Prop) : EnvId → Prop where
  | start {id : EnvId} (hid : start id) : Reaches h store start id
  | link {id next : EnvId} {f : Frame} (hid : Reaches h store start id) (hf : h.frame? id = some f)
    (hnext : f.Mentions store next) : Reaches h store start next

/-! ## Marks are not taken back -/

def IsMarked (h : Heap) (id : EnvId) : Prop :=
  ∃ slot, h.slots[id.index]? = some slot ∧ slot.generation = id.generation ∧
    slot.frame.isSome = true ∧ slot.marked = true

theorem contains_setMark (hid : h.contains id = true) (index : Nat) :
    (h.setMark index).contains id = true := by
  obtain ⟨slot, hslot, hgen, hframe⟩ := contains_iff.1 hid
  by_cases hindex : index = id.index
  · exact contains_iff.2 ⟨{ slot with marked := true },
      by simp [setMark, Array.getElem?_modify, hindex, hslot], hgen, hframe⟩
  · refine contains_iff.2 ⟨slot, ?_, hgen, hframe⟩
    simp [setMark, Array.getElem?_modify, hindex, hslot]

theorem IsMarked.setMark (hid : h.IsMarked id) (index : Nat) : (h.setMark index).IsMarked id := by
  obtain ⟨slot, hslot, hgen, hframe, hmarked⟩ := hid
  by_cases hindex : index = id.index
  · exact ⟨{ slot with marked := true },
      by simp [Heap.setMark, Array.getElem?_modify, hindex, hslot], hgen, hframe, rfl⟩
  · refine ⟨slot, ?_, hgen, hframe, hmarked⟩
    simp [Heap.setMark, Array.getElem?_modify, hindex, hslot]

theorem isMarked_setMark_self (hid : h.contains id = true) : (h.setMark id.index).IsMarked id := by
  obtain ⟨slot, hslot, hgen, hframe⟩ := contains_iff.1 hid
  refine ⟨{ slot with marked := true }, ?_, hgen, hframe, rfl⟩
  simp [setMark, Array.getElem?_modify, hslot]

theorem WellFormed.not_isMarked (hwf : h.WellFormed) (id : EnvId) : ¬ h.IsMarked id := by
  rintro ⟨slot, hslot, -, -, hmarked⟩
  rw [hwf.unmarked hslot] at hmarked
  cases hmarked

theorem unmarked?_eq_some_iff {f : Frame} : h.unmarked? id = some f ↔
    ∃ slot, h.slots[id.index]? = some slot ∧ slot.generation = id.generation ∧
      slot.marked = false ∧ slot.frame = some f := by
  unfold unmarked?
  cases h.slots[id.index]? with
  | none => simp
  | some slot => by_cases hgen : slot.generation = id.generation <;> simp [hgen]

theorem frame?_of_unmarked? {f : Frame} (hf : h.unmarked? id = some f) : h.frame? id = some f := by
  obtain ⟨slot, hslot, hgen, -, hframe⟩ := unmarked?_eq_some_iff.1 hf
  exact frame?_eq_some_iff.2 ⟨slot, hslot, hgen, hframe⟩

/-- A frame that is there and need not be marked any more is marked. -/
theorem isMarked_of_unmarked? (hid : h.contains id = true) (hnone : h.unmarked? id = none) :
    h.IsMarked id := by
  obtain ⟨slot, hslot, hgen, hframe⟩ := contains_iff.1 hid
  refine ⟨slot, hslot, hgen, hframe, ?_⟩
  obtain ⟨f, hf⟩ := Option.isSome_iff_exists.1 hframe
  cases hmarked : slot.marked with
  | true => rfl
  | false => cases hnone.symm.trans (unmarked?_eq_some_iff.2 ⟨slot, hslot, hgen, hmarked, hf⟩)

section

variable {frontier next next' : List EnvId}

/-- One step of a round: the first environment of the frontier has nothing to mark, or its frame is
    marked and the links of the frame are put aside for the next round. -/
theorem markRound_cons (hround : markRound store (id :: frontier) next h = some (next', h')) :
    h.unmarked? id = none ∧ markRound store frontier next h = some (next', h') ∨
      ∃ f links, h.unmarked? id = some f ∧ f.links store = some links ∧
        markRound store frontier (links ++ next) (h.setMark id.index) = some (next', h') := by
  unfold markRound at hround
  cases hf : h.unmarked? id with
  | none =>
    rw [hf] at hround
    exact .inl ⟨rfl, hround⟩
  | some f =>
    rw [hf] at hround
    obtain ⟨links, hlinks, hround⟩ := Option.bind_eq_some_iff.1 hround
    exact .inr ⟨f, links, rfl, hlinks, hround⟩

/-- What every round keeps lasts until the marking is over. -/
theorem markRounds_induct {fuel : Nat} {kept : Heap → Prop}
    (hkeep : ∀ {frontier next next' m m'}, kept m →
      markRound store frontier next m = some (next', m') → kept m') (hm : kept m)
    (hrounds : markRounds store fuel frontier m = some m') : kept m' := by
  induction fuel generalizing frontier m with
  | zero =>
    cases hrounds
    exact hm
  | succ fuel ih =>
    cases frontier with
    | nil =>
      cases hrounds
      exact hm
    | cons first rest =>
      obtain ⟨⟨next, mid⟩, hround, hrounds⟩ := Option.bind_eq_some_iff.1 hrounds
      exact ih (hkeep hm hround) hrounds

/-- A round of marking takes no mark back, and marks the frames of its frontier. -/
theorem isMarked_of_markRound (hround : markRound store frontier next h = some (next', h'))
    (hid : h.IsMarked id ∨ h.contains id = true ∧ id ∈ frontier) : h'.IsMarked id := by
  induction frontier generalizing next h with
  | nil =>
    cases hround
    exact hid.resolve_right fun h => nomatch h.2
  | cons first rest ih =>
    obtain ⟨hfirst, hround⟩ | ⟨frame, links, -, -, hround⟩ := markRound_cons hround
    · -- no frame to mark: it was marked before, or it is not there
      refine ih hround ?_
      rcases hid with hmarked | ⟨hthere, hmem⟩
      · exact .inl hmarked
      · rcases List.mem_cons.1 hmem with rfl | hrest
        · exact .inl (isMarked_of_unmarked? hthere hfirst)
        · exact .inr ⟨hthere, hrest⟩
    · refine ih hround ?_
      rcases hid with hmarked | ⟨hthere, hmem⟩
      · exact .inl (hmarked.setMark _)
      · rcases List.mem_cons.1 hmem with rfl | hrest
        · exact .inl (isMarked_setMark_self hthere)
        · exact .inr ⟨contains_setMark hthere _, hrest⟩

theorem IsMarked.of_markRounds {fuel : Nat} (hrounds : markRounds store fuel frontier h = some h')
    (hid : h.IsMarked id) : h'.IsMarked id :=
  markRounds_induct (fun hid hround => isMarked_of_markRound hround (.inl hid)) hid hrounds

theorem isMarked_of_mark {roots : List EnvId} (hmark : h.mark store roots = some h')
    (hid : h.contains id = true) (hroot : id ∈ roots) : h'.IsMarked id := by
  cases roots with
  | nil => cases hroot
  | cons first rest =>
    obtain ⟨⟨next, mid⟩, hround, hrounds⟩ := Option.bind_eq_some_iff.1 hmark
    exact (isMarked_of_markRound hround (.inr ⟨hid, hroot⟩)).of_markRounds hrounds

end

theorem IsMarked.contains_sweep (hid : h.IsMarked id) : h.sweep.2.contains id = true := by
  obtain ⟨slot, hslot, hgen, hframe, hmarked⟩ := hid
  -- a marked slot is no garbage, so sweeping takes its mark and nothing else
  have hkept : slot.swept = { slot with marked := false } := by
    simp [Slot.swept, Slot.isGarbage, hmarked]
  refine contains_iff.2 ⟨slot.swept, by simp [sweep, hslot], ?_, ?_⟩ <;> rw [hkept]
  · exact hgen
  · exact hframe

/-- A collection keeps the frames that it starts from. -/
theorem contains_of_collect {store : PromiseStore} {roots : List EnvId} {values : List Value}
    {freed : Nat} (hcollect : h.collect store roots values = some (freed, h'))
    (hid : h.contains id = true) (hroot : id ∈ roots) : h'.contains id = true := by
  obtain ⟨links, -, hcollect⟩ := Option.bind_eq_some_iff.1 hcollect
  obtain ⟨marked, hmark, hswept⟩ := Option.bind_eq_some_iff.1 hcollect
  have heq : marked.sweep = (freed, h') := Option.some.inj hswept
  have hthere := (isMarked_of_mark hmark hid (List.mem_append_left _ hroot)).contains_sweep
  rwa [heq] at hthere

/-! ## Marks and nothing else -/

/-- The heap without marks. -/
def unmark (h : Heap) : Heap :=
  { h with slots := h.slots.map fun slot => { slot with marked := false } }

@[simp] theorem frame?_unmark (h : Heap) (id : EnvId) : h.unmark.frame? id = h.frame? id := by
  simp only [frame?, unmark, Array.getElem?_map]
  cases h.slots[id.index]? with
  | none => rfl
  | some slot => rfl

@[simp] theorem unmark_setMark (h : Heap) (index : Nat) : (h.setMark index).unmark = h.unmark := by
  simp only [unmark, setMark, mk.injEq, and_self, and_true]
  refine Array.ext_getElem? fun i => ?_
  by_cases hi : index = i <;> simp [Array.getElem?_modify, hi, Function.comp_def]

theorem WellFormed.unmark_eq (hwf : h.WellFormed) : h.unmark = h := by
  have hslots : h.slots.map (fun slot => { slot with marked := false }) = h.slots := by
    refine Array.ext_getElem? fun i => ?_
    rw [Array.getElem?_map]
    cases hslot : h.slots[i]? with
    | none => rfl
    | some slot => simp [← hwf.unmarked hslot]
  rw [unmark, hslots]

theorem IsMarked.contains (hid : h.IsMarked id) : h.contains id = true := by
  obtain ⟨slot, hslot, hgen, hframe, -⟩ := hid
  exact contains_iff.2 ⟨slot, hslot, hgen, hframe⟩

theorem isMarked_setMark_iff (hid : h.contains id = true) {other : EnvId} :
    (h.setMark id.index).IsMarked other ↔ h.IsMarked other ∨ other = id := by
  constructor
  · rintro ⟨slot, hslot, hgen, hframe, hmarked⟩
    obtain ⟨old, hold, hidgen, -⟩ := contains_iff.1 hid
    simp only [setMark, Array.getElem?_modify] at hslot
    split at hslot
    · rename_i hindex
      -- there is one frame at most in the slot that was marked
      rw [← hindex, hold] at hslot
      cases hslot
      right
      cases id
      cases other
      simp_all
    · exact .inl ⟨slot, hslot, hgen, hframe, hmarked⟩
  · rintro (hother | rfl)
    · exact hother.setMark _
    · exact isMarked_setMark_self hid

/-! ## The invariant of marking -/

/-- Marking of the heap `h` has got as far as `m`, and these environments are still to be looked
    at. -/
structure Marking (h : Heap) (store : PromiseStore) (start : EnvId → Prop) (pending : List EnvId)
    (m : Heap) : Prop where
  unmark : m.unmark = h
  sound : ∀ {id}, m.IsMarked id ∨ id ∈ pending → h.Reaches store start id
  start : ∀ {id}, start id → h.contains id = true → m.IsMarked id ∨ id ∈ pending
  link : ∀ {id next f}, m.IsMarked id → h.frame? id = some f → f.Mentions store next →
    h.contains next = true → m.IsMarked next ∨ next ∈ pending

namespace Marking

variable {pending rest next next' links : List EnvId} {f : Frame}

theorem frame? (hm : h.Marking store start pending m) (id : EnvId) : m.frame? id = h.frame? id := by
  rw [← hm.unmark, frame?_unmark]

theorem contains (hm : h.Marking store start pending m) (id : EnvId) :
    m.contains id = h.contains id := by
  rw [Heap.contains, Heap.contains, hm.frame?]

/-- The order in which the environments are looked at does not matter. -/
theorem reorder (hm : h.Marking store start pending m) (hsame : ∀ id, id ∈ pending ↔ id ∈ rest) :
    h.Marking store start rest m := by
  constructor
  case unmark => exact hm.unmark
  case sound => exact fun hid => hm.sound (by rwa [hsame])
  case start => exact fun hid hthere => by rw [← hsame]; exact hm.start hid hthere
  case link => exact fun hid hf hnext hthere => by rw [← hsame]; exact hm.link hid hf hnext hthere

/-- An environment whose frame is not there or is marked is passed over. -/
theorem skip (hm : h.Marking store start (id :: pending) m) (hnone : m.unmarked? id = none) :
    h.Marking store start pending m := by
  have hpassed {other : EnvId} (hthere : h.contains other = true)
      (hother : m.IsMarked other ∨ other ∈ id :: pending) : m.IsMarked other ∨ other ∈ pending := by
    obtain hmarked | hpending := hother
    · exact .inl hmarked
    · obtain rfl | hrest := List.mem_cons.1 hpending
      · exact .inl (isMarked_of_unmarked? (by rw [hm.contains, hthere]) hnone)
      · exact .inr hrest
  constructor
  case unmark => exact hm.unmark
  case sound => exact fun hid => hm.sound (hid.imp_right (List.mem_cons_of_mem _))
  case start => exact fun hid hthere => hpassed hthere (hm.start hid hthere)
  case link => exact fun hid hf hnext hthere => hpassed hthere (hm.link hid hf hnext hthere)

/-- An environment whose frame is there is marked, and what its frame mentions is to be looked
    at. -/
theorem visit (hm : h.Marking store start (id :: pending) m) (hf : m.unmarked? id = some f)
    (hlinks : f.links store = some links) :
    h.Marking store start (links ++ pending) (m.setMark id.index) := by
  have hframe := frame?_of_unmarked? hf
  have hthere := contains_of_frame? hframe
  have hreached : h.Reaches store start id := hm.sound (.inr List.mem_cons_self)
  -- what was marked or waiting is marked or waiting still
  have hpassed {other : EnvId} (hother : m.IsMarked other ∨ other ∈ id :: pending) :
      (m.setMark id.index).IsMarked other ∨ other ∈ links ++ pending := by
    rw [isMarked_setMark_iff hthere]
    obtain hmarked | hpending := hother
    · exact .inl (.inl hmarked)
    · obtain rfl | hrest := List.mem_cons.1 hpending
      · exact .inl (.inr rfl)
      · exact .inr (List.mem_append_right _ hrest)
  constructor
  case unmark => rw [unmark_setMark, hm.unmark]
  case sound =>
    intro other hother
    rw [isMarked_setMark_iff hthere, List.mem_append] at hother
    obtain (hmarked | rfl) | hlink | hpending := hother
    · exact hm.sound (.inl hmarked)
    · exact hreached
    · exact hreached.link ((hm.frame? id).symm.trans hframe) ((Frame.mem_links hlinks).1 hlink)
    · exact hm.sound (.inr (List.mem_cons_of_mem _ hpending))
  case start => exact fun hid hthere => hpassed (hm.start hid hthere)
  case link =>
    intro other next g hother hg hnext hnextThere
    rw [isMarked_setMark_iff hthere] at hother
    obtain hmarked | rfl := hother
    · exact hpassed (hm.link hmarked hg hnext hnextThere)
    · obtain rfl : f = g := Option.some.inj (hframe.symm.trans ((hm.frame? other).trans hg))
      exact .inr (List.mem_append_left _ ((Frame.mem_links hlinks).2 hnext))

/-- A round of marking looks at the whole frontier. -/
theorem round (hm : h.Marking store start (pending ++ next) m)
    (hround : markRound store pending next m = some (next', m')) :
    h.Marking store start next' m' := by
  induction pending generalizing next m with
  | nil =>
    cases hround
    exact hm
  | cons id rest ih =>
    obtain ⟨hnone, hround⟩ | ⟨f, links, hf, hlinks, hround⟩ := markRound_cons hround
    · exact ih (hm.skip hnone) hround
    · refine ih ((hm.visit hf hlinks).reorder fun other => ?_) hround
      simp only [List.append_eq, List.mem_append]
      exact or_left_comm

end Marking

/-! ## Enough rounds -/

/-- The number of slots without mark. -/
def unmarkedSlots (h : Heap) : Nat := h.slots.countP fun slot => !slot.marked

theorem unmarkedSlots_setMark {f : Frame} (hf : h.unmarked? id = some f) :
    (h.setMark id.index).unmarkedSlots < h.unmarkedSlots := by
  obtain ⟨slot, hslot, -, hmarked, -⟩ := unmarked?_eq_some_iff.1 hf
  -- the slot counted before and does not count now
  have hcount := countP_modify hslot (fun slot => !slot.marked)
    fun slot => { slot with marked := true }
  simp only [hmarked, Bool.not_false, Bool.not_true, if_true, Bool.false_eq_true, if_false]
    at hcount
  simp only [unmarkedSlots, setMark]
  omega

/-- A round that finds something to look at next has marked a slot. -/
theorem unmarkedSlots_round {frontier next next' : List EnvId}
    (hround : markRound store frontier next m = some (next', m')) :
    next' = next ∧ m' = m ∨ m'.unmarkedSlots < m.unmarkedSlots := by
  induction frontier generalizing next m with
  | nil =>
    cases hround
    exact .inl ⟨rfl, rfl⟩
  | cons id rest ih =>
    obtain ⟨-, hround⟩ | ⟨f, links, hf, -, hround⟩ := markRound_cons hround
    · exact ih hround
    · have hlt := unmarkedSlots_setMark hf
      obtain ⟨-, rfl⟩ | hrest := ih hround
      · exact .inr hlt
      · exact .inr (Nat.lt_trans hrest hlt)

namespace Marking

/-- With more rounds than slots without mark the frontier is empty at the end. -/
theorem rounds {fuel : Nat} {frontier : List EnvId} (hm : h.Marking store start frontier m)
    (hfuel : m.unmarkedSlots < fuel) (hrounds : markRounds store fuel frontier m = some m') :
    h.Marking store start [] m' := by
  induction fuel generalizing frontier m with
  | zero => omega
  | succ fuel ih =>
    cases frontier with
    | nil =>
      cases hrounds
      exact hm
    | cons first rest =>
      obtain ⟨⟨next, mid⟩, hround, hrounds⟩ := Option.bind_eq_some_iff.1 hrounds
      have hmid : h.Marking store start next mid := by
        refine round (hm.reorder fun id => ?_) hround
        simp
      obtain ⟨rfl, -⟩ | hlt := unmarkedSlots_round hround
      · -- nothing was marked, so the next round is not run
        have hdone : mid = m' := by cases fuel <;> exact Option.some.inj hrounds
        exact hdone ▸ hmid
      · exact ih hmid (by omega) hrounds

/-- When nothing is left to be looked at, the frames that can be reached are marked. -/
theorem isMarked_iff (hm : h.Marking store start [] m) :
    m.IsMarked id ↔ h.contains id = true ∧ h.Reaches store start id := by
  constructor
  · intro hmarked
    exact ⟨(hm.contains id).symm.trans hmarked.contains, hm.sound (.inl hmarked)⟩
  · rintro ⟨hthere, hreached⟩
    induction hreached with
    | start hid => exact (hm.start hid hthere).resolve_right List.not_mem_nil
    | link _ hf hnext ih =>
      have hmarked := ih (contains_of_frame? hf)
      exact (hm.link hmarked hf hnext hthere).resolve_right List.not_mem_nil

end Marking

theorem WellFormed.marking (hwf : h.WellFormed) {roots : List EnvId}
    (hroots : ∀ id, id ∈ roots ↔ start id) : h.Marking store start roots h := by
  constructor
  case unmark => exact hwf.unmark_eq
  case sound =>
    intro id hid
    exact .start ((hroots id).1 (hid.resolve_left (hwf.not_isMarked id)))
  case start => exact fun hid _ => .inr ((hroots _).2 hid)
  case link => exact fun hid => absurd hid (hwf.not_isMarked _)

theorem WellFormed.marking_mark (hwf : h.WellFormed) {roots : List EnvId}
    (hroots : ∀ id, id ∈ roots ↔ start id) (hmark : h.mark store roots = some m) :
    h.Marking store start [] m :=
  (hwf.marking hroots).rounds (Nat.lt_succ_of_le Array.countP_le_size) hmark

end CallByNeed.Heap
