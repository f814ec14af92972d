import CallByNeed.Heap.Scope
import CallByNeed.Proofs.Heap.WellFormed
import Mathlib.Data.Finset.Card
import Mathlib.Data.Finset.Range

/-!
# Frames lie in layers

A frame is made inside one that is there already and never gets another parent.
So every frame can be given a layer above that of its parent (`Heap.Layered`),
and the way outward from a frame comes to an end: it passes through no more
frames than there are slots (`Layered.endsWithin`).  What is found on the way is
bound in a frame that is there (`frame?_of_owner?`).
-/

namespace CallByNeed.Heap

variable {h h' h'' : Heap} {id : EnvId} {f : Frame}

/-- Every frame can be given a layer above that of its parent. -/
def Layered (h : Heap) : Prop :=
  ∃ layer : EnvId → Nat, ∀ {id : EnvId} {f : Frame} {parent : EnvId},
    h.frame? id = some f → f.parent = some parent → layer parent < layer id

/-- There are at most `n` frames from `start` outward. -/
def EndsWithin (h : Heap) : (n : Nat) → (start : Option EnvId) → Prop
  | _, none => True
  | 0, some _ => False
  | n + 1, some id => ∀ f, h.frame? id = some f → h.EndsWithin n f.parent

/-- No two frames that are there share a slot. -/
theorem eq_of_index_eq {other : EnvId} (hid : h.contains id = true)
    (hother : h.contains other = true) (hindex : other.index = id.index) : other = id := by
  obtain ⟨slot, hslot, hgen, -⟩ := contains_iff.1 hid
  obtain ⟨slot', hslot', hgen', -⟩ := contains_iff.1 hother
  rw [hindex, hslot] at hslot'
  cases hslot'
  obtain ⟨index, generation⟩ := id
  obtain ⟨index', generation'⟩ := other
  simp_all

theorem card_le_size {seen : Finset EnvId} (hseen : ∀ id ∈ seen, h.contains id = true) :
    seen.card ≤ h.slots.size := by
  rw [← Finset.card_range h.slots.size]
  refine Finset.card_le_card_of_injOn EnvId.index (fun id hid => ?_)
    fun id hid other hother he => ?_
  · obtain ⟨slot, hslot, -⟩ := contains_iff.1 (hseen id hid)
    obtain ⟨hindex, -⟩ := Array.getElem?_eq_some_iff.1 hslot
    simpa using hindex
  · exact (eq_of_index_eq (hseen id hid) (hseen other hother) he.symm).symm

/-- The way outward from a frame is no longer than the heap is large. -/
theorem Layered.endsWithin (hlayered : h.Layered) (start : Option EnvId) :
    h.EndsWithin (h.slots.size + 1) start := by
  obtain ⟨layer, hlayer⟩ := hlayered
  -- the frames that were passed lie in layers above, so none of them comes again
  have hrest (n : Nat) (seen : Finset EnvId) (start : Option EnvId)
      (hseen : ∀ id ∈ seen, h.contains id = true ∧ ∀ next ∈ start, layer next < layer id)
      (hn : h.slots.size + 1 ≤ n + seen.card) : h.EndsWithin n start := by
    have hcard := card_le_size fun id hid => (hseen id hid).1
    induction n generalizing seen start with
    | zero => omega
    | succ n ih =>
      cases start with
      | none => trivial
      | some id =>
        intro f hf
        have hnew : id ∉ seen := fun hmem => Nat.lt_irrefl _ ((hseen id hmem).2 id rfl)
        have hlive := contains_of_frame? hf
        have hnext : ∀ other ∈ seen.cons id hnew, h.contains other = true ∧
            ∀ next ∈ f.parent, layer next < layer other := by
          intro other hother
          obtain rfl | hother := Finset.mem_cons.1 hother
          · exact ⟨hlive, fun next hparent => hlayer hf hparent⟩
          · refine ⟨(hseen other hother).1, fun next hparent => ?_⟩
            exact Nat.lt_trans (hlayer hf hparent) ((hseen other hother).2 id rfl)
        refine ih (seen.cons id hnew) f.parent hnext ?_ (card_le_size fun other hother =>
          (hnext other hother).1)
        rw [Finset.card_cons]
        omega
  exact hrest _ ∅ start (by simp) (by simp)

/-! ## What is found -/

theorem frame?_of_mem_scopeWithin {fuel : Nat} {start : Option EnvId} {seen : EnvId × Frame}
    (hseen : seen ∈ (h.scopeWithin fuel start).frames) : h.frame? seen.1 = some seen.2 := by
  induction fuel generalizing start with
  | zero => cases start <;> cases hseen
  | succ fuel ih =>
    cases start with
    | none => cases hseen
    | some id =>
      unfold scopeWithin at hseen
      cases hf : h.frame? id with
      | none =>
        rw [hf] at hseen
        cases hseen
      | some f =>
        rw [hf] at hseen
        obtain rfl | hseen := List.mem_cons.1 hseen
        · exact hf
        · exact ih hseen

/-- The owner of a variable is a frame that is there and binds it. -/
theorem frame?_of_owner? {start : Option EnvId} {name : Symbol} {owner : EnvId × Binding}
    (howner : (h.scopeFrom start).owner? name = .ok (some owner)) :
    ∃ f, h.frame? owner.1 = some f ∧ f.get? name = some owner.2 := by
  unfold Scope.owner? at howner
  split at howner
  · rename_i hfound
    cases howner
    obtain ⟨seen, hseen, hbinding⟩ := List.exists_of_findSome?_eq_some hfound
    obtain ⟨binding, hget, rfl⟩ := Option.map_eq_some_iff.1 hbinding
    exact ⟨seen.2, frame?_of_mem_scopeWithin hseen, hget⟩
  · cases howner
  · cases howner

theorem owner?_of_find {env id : EnvId} {name : Symbol} {value : Value}
    (hfound : h.find env name = .ok (some (id, value))) :
    ∃ binding, (h.scope env).owner? name = .ok (some (id, binding)) ∧ binding.value = value := by
  cases howner : (h.scope env).owner? name with
  | error e =>
    simp only [find, howner] at hfound
    cases hfound
  | ok owner =>
    simp only [find, howner] at hfound
    obtain ⟨⟨owner, binding⟩, rfl, hsame⟩ := Option.map_eq_some_iff.1 (Except.ok.inj hfound)
    cases hsame
    exact ⟨binding, rfl, rfl⟩

/-! ## Going on -/

/-- Every frame is there still, with the same parent, and the frames lie in layers if they did. -/
structure Deepens (h h' : Heap) : Prop where
  parents : ∀ {id f}, h.frame? id = some f → ∃ g, h'.frame? id = some g ∧ g.parent = f.parent
  layered : h.Layered → h'.Layered

namespace Deepens

theorem of_eq (heq : h' = h) : h.Deepens h' := by
  subst heq
  exact ⟨fun hf => ⟨_, hf, rfl⟩, fun hlayered => hlayered⟩

theorem trans (h₁ : h.Deepens h') (h₂ : h'.Deepens h'') : h.Deepens h'' := by
  refine ⟨fun hf => ?_, fun hlayered => h₂.layered (h₁.layered hlayered)⟩
  obtain ⟨g, hg, hparent⟩ := h₁.parents hf
  obtain ⟨g', hg', hparent'⟩ := h₂.parents hg
  exact ⟨g', hg', hparent'.trans hparent⟩

/-- Frames may change in everything but their parents. -/
theorem of_parents (hparents : ∀ id, (h'.frame? id).map Frame.parent =
    (h.frame? id).map Frame.parent) : h.Deepens h' := by
  constructor
  case parents =>
    intro id f hf
    have hsame := hparents id
    rw [hf] at hsame
    exact Option.map_eq_some_iff.1 hsame
  case layered =>
    intro ⟨layer, hlayer⟩
    refine ⟨layer, fun {id f parent} hf hparent => ?_⟩
    have hsame := hparents id
    rw [hf] at hsame
    obtain ⟨g, hg, hsame⟩ := Option.map_eq_some_iff.1 hsame.symm
    exact hlayer hg (hsame.trans hparent)

/-- A new frame lies above the one it is made in, and no other frame is inside it. -/
theorem allocate (hwf : h.WellFormed)
    (hparents : ∀ {id f parent}, h.frame? id = some f → f.parent = some parent →
      h.contains parent = true)
    {outer : Option EnvId} (houter : ∀ id ∈ outer, h.contains id = true) :
    h.Deepens (h.allocate outer).2 := by
  have hframe (id : EnvId) : (h.allocate outer).2.frame? id =
      if id = (h.allocate outer).1 then some (.empty outer) else h.frame? id :=
    hwf.frame?_insert _ id
  have hold {id : EnvId} (hid : h.contains id = true) : id ≠ (h.allocate outer).1 := by
    rintro rfl
    rw [contains, Heap.allocate, hwf.frame?_new] at hid
    cases hid
  constructor
  case parents =>
    intro id f hf
    refine ⟨f, ?_, rfl⟩
    rw [hframe, if_neg (hold (contains_of_frame? hf)), hf]
  case layered =>
    rintro ⟨layer, hlayer⟩
    -- the new frame goes one layer above its parent, or on the ground if it has none
    let above (id : EnvId) : Nat :=
      if id = (h.allocate outer).1 then (outer.map layer).getD 0 + 1 else layer id
    refine ⟨above, fun {id f parent} hf hparent => ?_⟩
    rw [hframe] at hf
    split at hf
    · rename_i hid
      cases hf
      cases hparent
      simp [above, hid, hold (houter parent rfl)]
    · rename_i hid
      have hlt := hlayer hf hparent
      simpa [above, hid, hold (hparents hf hparent)] using hlt

end Deepens

/-- A way outward that ends in a heap ends in every later one, if it meets frames only. -/
theorem EndsWithin.deepens (hdeepens : h.Deepens h')
    (hparents : ∀ {id f parent}, h.frame? id = some f → f.parent = some parent →
      h.contains parent = true)
    {n : Nat} {start : Option EnvId} (hstart : ∀ id ∈ start, h.contains id = true)
    (hends : h.EndsWithin n start) : h'.EndsWithin n start := by
  induction n generalizing start with
  | zero =>
    cases start with
    | none => trivial
    | some id => exact hends
  | succ n ih =>
    cases start with
    | none => trivial
    | some id =>
      intro g hg
      obtain ⟨f, hf⟩ := Option.isSome_iff_exists.1 (hstart id rfl)
      obtain ⟨g', hg', hparent⟩ := hdeepens.parents hf
      rw [hg] at hg'
      cases hg'
      rw [hparent]
      exact ih (fun next hnext => hparents hf hnext) (hends f hf)

end CallByNeed.Heap
