import CallByNeed.Loop.Table

/-!
# Laws of the table of loop instances

What is known about an instance after another one was entered or changed, and
how the number of instances and the number of generic ones change.
`LoopTable.Advances` compares two tables: no instance of the first one is
missing from the second, or falls back to an earlier phase there.
-/

namespace CallByNeed

/-- The position of a phase: a candidate comes before a fused instance, and that before a generic
    one. -/
def LoopPhase.rank : LoopPhase → Nat
  | candidate => 0
  | fused => 1
  | generic => 2

theorem LoopPhase.eq_generic_of_rank {p : LoopPhase} (h : LoopPhase.generic.rank ≤ p.rank) :
    p = .generic := by
  cases p with
  | candidate => exact absurd h (by decide)
  | fused => exact absurd h (by decide)
  | generic => rfl

theorem LoopStatus.rank_le_of_accumulation? {status : LoopStatus} {loop : Accumulation}
    (h : status.accumulation? = some loop) : status.phase.rank ≤ LoopPhase.fused.rank := by
  cases status with
  | candidate _ => exact Nat.zero_le 1
  | fused _ => exact Nat.le_refl 1
  | generic => cases h

namespace LoopTable

variable {table before mid after : LoopTable} {call other : Call} {status : LoopStatus}

def identities (table : LoopTable) : List Identity := table.instances.map (·.call.identity)

def genericCount (table : LoopTable) : Nat := table.instances.countP (·.status.phase == .generic)

/-! ## Reading after writing -/

theorem contains_iff : table.contains call = true ↔ call.identity ∈ table.identities := by
  simp [contains, status?, identities, List.find?_isSome]

theorem contains_of_phase? {p : LoopPhase} (h : table.phase? call = some p) :
    table.contains call = true := by
  unfold phase? at h
  unfold contains
  cases hs : table.status? call with
  | none => rw [hs] at h; cases h
  | some _ => rfl

theorem status?_congr (h : other.identity = call.identity) :
    table.status? other = table.status? call := by
  unfold status?
  rw [h]

/-- The instance of a call is the only one that a change of status changes. -/
theorem status?_set (table : LoopTable) (call other : Call) (status : LoopStatus) :
    (table.set call status).status? other =
      if other.identity = call.identity then (table.status? other).map fun _ => status
      else table.status? other := by
  unfold status? set
  rw [List.find?_map]
  have hsame : ((·.call.identity == other.identity) ∘ fun known : LoopInstance =>
      if known.call.identity == call.identity then { known with status } else known) =
      (·.call.identity == other.identity) := by
    funext known
    simp only [Function.comp_apply]
    split <;> rfl
  rw [hsame]
  cases hfound : table.instances.find? (·.call.identity == other.identity) with
  | none => simp
  | some known =>
    have hknown : known.call.identity = other.identity := by
      simpa using List.find?_some hfound
    by_cases h : other.identity = call.identity <;> simp [hknown, h]

theorem phase?_set_self (h : table.contains call = true) (hid : other.identity = call.identity) :
    (table.set call status).phase? other = some status.phase := by
  obtain ⟨old, hold⟩ := Option.isSome_iff_exists.1 h
  rw [phase?, status?_set, if_pos hid, status?_congr hid, hold]
  rfl

theorem phase?_set_of_ne (h : other.identity ≠ call.identity) :
    (table.set call status).phase? other = table.phase? other := by
  rw [phase?, status?_set, if_neg h, phase?]

theorem phase?_insert_of_ne (h : other.identity ≠ call.identity) :
    (table.insert call status).phase? other = table.phase? other := by
  rw [phase?, status?_insert_of_ne table status h, phase?]

/-! ## The instances -/

theorem filter_of_new (h : table.contains call = false) :
    table.instances.filter (·.call.identity != call.identity) = table.instances := by
  refine List.filter_eq_self.2 fun known hknown => ?_
  have hid : call.identity ∉ table.identities := by
    rw [← contains_iff, h]
    exact Bool.false_ne_true
  have hne : known.call.identity ≠ call.identity := fun he =>
    hid (he ▸ List.mem_map_of_mem hknown)
  simpa using hne

theorem size_insert_of_new (status : LoopStatus) (h : table.contains call = false) :
    (table.insert call status).size = table.size + 1 := by
  rw [size, insert, filter_of_new h]
  rfl

theorem size_insert_le (table : LoopTable) (call : Call) (status : LoopStatus) :
    (table.insert call status).size ≤ table.size + 1 :=
  Nat.succ_le_succ (List.length_filter_le _ _)

/-- An instance that is entered anew replaces the one that is there. -/
theorem size_insert_of_contains (status : LoopStatus) (h : table.contains call = true) :
    (table.insert call status).size ≤ table.size := by
  obtain ⟨known, hknown, hid⟩ := List.mem_map.1 (contains_iff.1 h)
  refine List.length_filter_lt_length_iff_exists.2 ⟨known, hknown, ?_⟩
  simp [hid]

theorem genericCount_insert_of_new (status : LoopStatus) (h : table.contains call = false) :
    table.genericCount ≤ (table.insert call status).genericCount := by
  rw [genericCount, genericCount, insert, filter_of_new h, List.countP_cons]
  exact Nat.le_add_right _ _

theorem calls_set (table : LoopTable) (call : Call) (status : LoopStatus) :
    (table.set call status).calls = table.calls := by
  simp only [calls, set, List.map_map]
  refine List.map_congr_left fun known _ => ?_
  simp only [Function.comp_apply]
  split <;> rfl

theorem mem_calls_insert (h : other ∈ (table.insert call status).calls) :
    other = call ∨ other ∈ table.calls := by
  obtain rfl | hold := List.mem_cons.1 h
  · exact .inl rfl
  · obtain ⟨known, hknown, rfl⟩ := List.mem_map.1 hold
    exact .inr (List.mem_map_of_mem (List.mem_filter.1 hknown).1)

theorem identities_set (table : LoopTable) (call : Call) (status : LoopStatus) :
    (table.set call status).identities = table.identities := by
  have hcalls := congrArg (List.map fun known : Call => known.identity)
    (table.calls_set call status)
  simp only [calls, List.map_map] at hcalls
  exact hcalls

theorem nodup_insert (status : LoopStatus) (h : table.identities.Nodup)
    (hnew : table.contains call = false) : (table.insert call status).identities.Nodup := by
  rw [identities, insert, filter_of_new hnew, List.map_cons]
  refine List.nodup_cons.2 ⟨?_, h⟩
  exact fun hmem => Bool.false_ne_true (hnew.symm.trans (contains_iff.2 hmem))

/-- When an instance that was not generic becomes generic, there is one more of them. -/
theorem genericCount_set {old : LoopStatus} (hnodup : table.identities.Nodup)
    (hold : table.status? call = some old) (hne : old.phase ≠ .generic) :
    (table.set call status).genericCount =
      table.genericCount + if status.phase = .generic then 1 else 0 := by
  obtain ⟨instances⟩ := table
  simp only [genericCount, set, identities, status?] at *
  -- no identity occurs twice, so past the instance itself nothing is changed
  induction instances with
  | nil => cases hold
  | cons known rest ih =>
    simp only [List.map_cons, List.nodup_cons] at hnodup
    by_cases hid : known.call.identity = call.identity
    · have hrest : rest.map (fun known : LoopInstance =>
          if known.call.identity == call.identity then { known with status } else known) =
        rest := by
        refine (List.map_congr_left fun other hother => ?_).trans (List.map_id rest)
        have hother' : other.call.identity ≠ call.identity := fun he =>
          hnodup.1 (by rw [hid, ← he]; exact List.mem_map_of_mem hother)
        simp [hother']
      obtain rfl : known.status = old := by simpa [hid] using hold
      rw [List.map_cons, hrest, List.countP_cons, List.countP_cons]
      simp [hid, hne]
    · have hold' := ih hnodup.2 (by simpa [hid] using hold)
      simp only [List.map_cons, List.countP_cons, hold']
      simp [hid]
      omega

/-! ## Phases -/

/-- No instance of the first table is missing from the second or at an earlier phase there. -/
def Advances (before after : LoopTable) : Prop :=
  ∀ call p, before.phase? call = some p → ∃ q, after.phase? call = some q ∧ p.rank ≤ q.rank

namespace Advances

theorem refl (table : LoopTable) : table.Advances table := fun _ p h => ⟨p, h, Nat.le_refl _⟩

theorem trans (h₁ : before.Advances mid) (h₂ : mid.Advances after) : before.Advances after := by
  intro call p hp
  obtain ⟨q, hq, hpq⟩ := h₁ call p hp
  obtain ⟨r, hr, hqr⟩ := h₂ call q hq
  exact ⟨r, hr, Nat.le_trans hpq hqr⟩

/-- An instance that was not there at first may be entered, also over one entered meanwhile. -/
theorem insert (status : LoopStatus) (h : before.Advances mid)
    (hnew : before.contains call = false) : before.Advances (mid.insert call status) := by
  intro other p hp
  -- an instance that is there at first is another one than the one entered
  have hne : other.identity ≠ call.identity := by
    intro hid
    have hcontains := contains_of_phase? hp
    rw [contains, status?_congr hid, ← contains, hnew] at hcontains
    cases hcontains
  rw [phase?_insert_of_ne hne]
  exact h other p hp

/-- An instance may be changed to a phase that is not before the one it had at first. -/
theorem set {p : LoopPhase} (h : before.Advances mid) (hp : before.phase? call = some p)
    (hrank : p.rank ≤ status.phase.rank) : before.Advances (mid.set call status) := by
  intro other q hq
  by_cases hid : other.identity = call.identity
  · obtain ⟨r, hr, -⟩ := h call p hp
    refine ⟨status.phase, phase?_set_self (contains_of_phase? hr) hid, ?_⟩
    rw [phase?, status?_congr hid, ← phase?, hp] at hq
    cases hq
    exact hrank
  · rw [phase?_set_of_ne hid]
    exact h other q hq

end Advances

end LoopTable

end CallByNeed
