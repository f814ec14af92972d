import CallByNeed.Proofs.Heap.References

/-!
# Aging

A heap ages as its slots are freed.  Each collection frees a slot once at most,
so the generation of a slot goes up by as much as there were collections, or by
less (`Heap.Ages`).  Hence an environment that is there at the beginning and at
the end was there all the time, if there were less collections in between than
there are generations (`Ages.contains_between`).
-/

namespace CallByNeed.Heap

variable {h h' h'' : Heap} {id : EnvId}

/-- No slot is lost, and each was freed once in a collection at most.  One that was not freed is
    not empty if it was not. -/
structure Ages (h h' : Heap) : Prop where
  collections : h.stats.collections ≤ h'.stats.collections
  slots : ∀ {i : Nat} {slot : Slot}, h.slots[i]? = some slot → ∃ slot' n,
    h'.slots[i]? = some slot' ∧ slot'.generation = slot.generation + UInt32.ofNat n ∧
      h.stats.collections + n ≤ h'.stats.collections ∧
      (n = 0 → slot.frame.isSome = true → slot'.frame.isSome = true)

namespace Ages

theorem refl (h : Heap) : h.Ages h where
  collections := Nat.le_refl _
  slots hslot := ⟨_, 0, hslot, by simp, Nat.le_refl _, fun _ => id⟩

theorem trans (h₁ : h.Ages h') (h₂ : h'.Ages h'') : h.Ages h'' where
  collections := Nat.le_trans h₁.collections h₂.collections
  slots := by
    intro i slot hslot
    obtain ⟨slot', m, hslot', hm, hmle, hkept⟩ := h₁.slots hslot
    obtain ⟨slot'', n, hslot'', hn, hnle, hkept'⟩ := h₂.slots hslot'
    refine ⟨slot'', m + n, hslot'', ?_, by omega, fun hnone hframe => ?_⟩
    · rw [hn, hm, UInt32.ofNat_add, UInt32.add_assoc]
    · exact hkept' (by omega) (hkept (by omega) hframe)

/-- The slots have turned, and none was freed without a collection. -/
theorem of_turns (hturns : h.Turns h') (hle : h.stats.collections ≤ h'.stats.collections)
    (hfreed : ∀ i, h.fills i = true → h'.fills i = false →
      h.stats.collections < h'.stats.collections) : h.Ages h' where
  collections := hle
  slots := by
    intro i slot hslot
    obtain ⟨slot', hslot', hgeneration⟩ := hturns.old hslot
    split at hgeneration
    · rename_i hfree
      simp only [Bool.and_eq_true, Bool.not_eq_true'] at hfree
      exact ⟨slot', 1, hslot', hgeneration, hfreed i hfree.1 hfree.2, nofun⟩
    · rename_i hkept
      refine ⟨slot', 0, hslot', by simpa using hgeneration, hle, fun _ hframe => ?_⟩
      have hfull : h.fills i = true := fills_iff.2 ⟨slot, hslot, hframe⟩
      obtain ⟨other, hother, hframe'⟩ := fills_iff.1 (by simpa [hfull] using hkept)
      cases hslot'.symm.trans hother
      exact hframe'

theorem updateSlot (h : Heap) (index : Nat) (change : Frame → Frame) :
    h.Ages (h.updateSlot index change) := by
  refine .of_turns (turns_updateSlot h index change) (Nat.le_refl _) fun i hfull hempty => ?_
  rw [fills_updateSlot] at hempty
  exact absurd (hempty.symm.trans hfull) Bool.false_ne_true

theorem insert (h : Heap) (f : Frame) : h.Ages (h.insert f).2 := by
  have hstats : (h.insert f).2.stats = h.stats := by
    unfold Heap.insert
    split <;> rfl
  refine .of_turns (turns_insert h f) (Nat.le_of_eq (by rw [hstats])) fun i hfull hempty => ?_
  exact absurd (hempty.symm.trans (fills_insert hfull f)) Bool.false_ne_true

theorem collect {store : PromiseStore} {roots : List EnvId} {values : List Value} {freed : Nat}
    (hwf : h.WellFormed) (hcollect : h.collect store roots values = some (freed, h')) :
    h.Ages h' := by
  have hcount : h'.stats.collections = h.stats.collections + 1 := by
    obtain ⟨m, hm, hsweep⟩ := hwf.marking_collect hcollect
    rw [← hm.unmark, ← show m.sweep.2 = h' from congrArg Prod.snd hsweep]
    rfl
  exact .of_turns (hwf.performed_collect hcollect).turns (by omega) fun _ _ _ => by omega

/-- An environment that is there in the end was there in between, unless the generations of its slot
    have begun anew. -/
theorem contains_between (h₁ : h.Ages h') (h₂ : h'.Ages h'') (hid : h.contains id = true)
    (hid'' : h''.contains id = true)
    (hcount : h''.stats.collections < h.stats.collections + 2 ^ 32) : h'.contains id = true := by
  obtain ⟨slot, hslot, hgeneration, hframe⟩ := contains_iff.1 hid
  obtain ⟨slot', m, hslot', hm, hmle, hkept⟩ := h₁.slots hslot
  obtain ⟨slot'', n, hslot'', hn, hnle, -⟩ := h₂.slots hslot'
  obtain ⟨other, hother, hgeneration'', -⟩ := contains_iff.1 hid''
  cases hslot''.symm.trans hother
  -- both parts of the way add to the generation, and together they come back to it
  have hsame : slot.generation + UInt32.ofNat m + UInt32.ofNat n = slot.generation := by
    rw [← hm, ← hn, hgeneration'', hgeneration]
  have hnat := congrArg UInt32.toNat hsame
  simp only [UInt32.toNat_add, UInt32.toNat_ofNat'] at hnat
  have hbound := slot.generation.toNat_lt
  -- fewer than `2 ^ 32` steps come back to it only if there were none
  have hzero : m = 0 := by omega
  subst hzero
  exact contains_iff.2 ⟨slot', hslot', by simpa [hgeneration] using hm, hkept rfl hframe⟩

end Ages

end CallByNeed.Heap
