import CallByNeed.Loop.Run

/-!
# One iteration of a lane

A lane holds the values of all iterations.  `Lane.inIteration` picks those of a
single one, and an elementwise operation on lanes is that operation in each
iteration (`map_inIteration`).  A lane that varies has one number for each
iteration and no attributes (`Lane.Fits`).
-/

namespace CallByNeed

/-! ## Recycling -/

theorem recycled_of_lt {xs : Array Float} {i : Nat} (h : i < xs.size) :
    recycled xs (Nat.zero_lt_of_lt h) i = xs[i] := by
  simp [recycled, Nat.mod_eq_of_lt h]

theorem recycled_singleton (x : Float) (i : Nat) : recycled #[x] (Nat.zero_lt_one) i = x := by
  have h : i % 1 = 0 := Nat.mod_one i
  simp [recycled, h]

theorem zipRecycled_getElem? {α : Type} (f : Float → Float → α) {xs ys : Array Float} {i : Nat}
    (hxs : 0 < xs.size) (hys : 0 < ys.size) (hi : i < recycledSize xs.size ys.size) :
    (zipRecycled f xs ys)[i]? = some (f (recycled xs hxs i) (recycled ys hys i)) := by
  unfold zipRecycled
  rw [dif_pos ⟨hxs, hys⟩]
  simp [hi]

namespace Lane

/-- The values of one iteration, as a lane that does not vary. -/
def inIteration (lane : Lane) (i : Nat) : Lane :=
  if lane.varying then { lane with values := (lane.values[i]?).toArray, varying := false } else lane

/-- If the lane varies, it has a number for each of the iterations and no attributes. -/
def Fits (lane : Lane) (iterations : Nat) : Prop :=
  lane.varying = true → lane.values.size = iterations ∧ lane.carriesAttributes = false

variable {lane x y : Lane} {n i : Nat}

theorem inIteration_of_not_varying (h : lane.varying = false) (i : Nat) :
    lane.inIteration i = lane := by
  simp [inIteration, h]

@[simp] theorem varying_inIteration (lane : Lane) (i : Nat) :
    (lane.inIteration i).varying = false := by
  unfold inIteration
  split
  · rfl
  · simp_all

theorem carriesAttributes_inIteration (lane : Lane) (i : Nat) :
    (lane.inIteration i).carriesAttributes = lane.carriesAttributes := by
  unfold inIteration
  split <;> rfl

/-- The number that a lane has in one iteration, if it varies or is a single number. -/
theorem values_inIteration (hfits : lane.Fits n) (hi : i < n)
    (hfitsVarying : lane.fitsVarying = true) :
    ∃ hpos : 0 < lane.values.size,
      (lane.inIteration i).values = #[recycled lane.values hpos i] := by
  cases hvarying : lane.varying with
  | true =>
    have hlt : i < lane.values.size := by rw [(hfits hvarying).1]; exact hi
    refine ⟨Nat.zero_lt_of_lt hlt, ?_⟩
    simp [inIteration, hvarying, hlt, recycled_of_lt hlt]
  | false =>
    have hsize : lane.values.size = 1 := by simpa [fitsVarying, hvarying] using hfitsVarying
    obtain ⟨x, hx⟩ := Array.size_eq_one_iff.1 hsize
    refine ⟨by omega, ?_⟩
    rw [inIteration_of_not_varying hvarying]
    simp only [hx]
    rw [recycled_singleton]

theorem size_of_fitsVarying (hfits : lane.Fits n) (hfitsVarying : lane.fitsVarying = true) :
    lane.values.size = n ∧ lane.varying = true ∨ lane.values.size = 1 ∧ lane.varying = false := by
  cases hvarying : lane.varying with
  | true => exact .inl ⟨(hfits hvarying).1, rfl⟩
  | false => exact .inr ⟨by simpa [fitsVarying, hvarying] using hfitsVarying, rfl⟩

/-! ## Elementwise operations -/

theorem fits_unary {op : UnaryOp} (hx : x.Fits n) :
    ({ x with values := op.map x.values } : Lane).Fits n := fun hvarying => by
  obtain ⟨hsize, hplain⟩ := hx hvarying
  exact ⟨by simpa using hsize, hplain⟩

theorem inIteration_unary (op : UnaryOp) (x : Lane) (i : Nat) :
    ({ x with values := op.map x.values } : Lane).inIteration i =
      { x.inIteration i with values := op.map (x.inIteration i).values } := by
  unfold inIteration
  by_cases hvarying : x.varying = true
  · simp only [hvarying, if_true]
    cases hi : x.values[i]? <;> simp [UnaryOp.map, hi]
  · simp [hvarying]

theorem size_binary (op : BinaryOp) (hx : x.Fits n) (hy : y.Fits n) (hn : 0 < n)
    (hxfits : x.fitsVarying = true) (hyfits : y.fitsVarying = true)
    (hvarying : (x.varying || y.varying) = true) :
    (op.map x.values y.values).size = n := by
  rw [BinaryOp.size_map]
  have hxsize := size_of_fitsVarying hx hxfits
  have hysize := size_of_fitsVarying hy hyfits
  unfold recycledSize
  -- one case for each pair of varying and single operands; two single ones do not vary
  rcases hxsize with ⟨hxsize, -⟩ | ⟨hxsize, hxfixed⟩ <;>
    rcases hysize with ⟨hysize, -⟩ | ⟨hysize, hyfixed⟩ <;> rw [hxsize, hysize]
  · rw [if_neg (by omega), Nat.max_self]
  · rw [if_neg (by omega)]
    omega
  · rw [if_neg (by omega)]
    omega
  · simp [hxfixed, hyfixed] at hvarying

theorem inIteration_binary (op : BinaryOp) (hx : x.Fits n) (hy : y.Fits n) (hi : i < n)
    (hxfits : x.fitsVarying = true) (hyfits : y.fitsVarying = true)
    (hvarying : (x.varying || y.varying) = true) :
    (⟨op.map x.values y.values, x.varying || y.varying, none, true⟩ : Lane).inIteration i =
      ⟨op.map (x.inIteration i).values (y.inIteration i).values, false, none, true⟩ := by
  obtain ⟨hxpos, hxvalue⟩ := values_inIteration hx hi hxfits
  obtain ⟨hypos, hyvalue⟩ := values_inIteration hy hi hyfits
  -- one of the two varies, so the result has a number for each iteration
  have hsize := size_binary op hx hy (Nat.zero_lt_of_lt hi) hxfits hyfits hvarying
  have hlt : i < recycledSize x.values.size y.values.size := by
    rw [← BinaryOp.size_map op, hsize]
    exact hi
  have hvalue : (op.map x.values y.values)[i]? = _ :=
    zipRecycled_getElem? op.apply hxpos hypos hlt
  rw [hxvalue, hyvalue]
  unfold inIteration
  simp only [hvarying, if_true, hvalue]
  rfl

/-- An operation on lanes is the operation in each iteration. -/
theorem map_inIteration {op : ElementwiseOp} {lanes : List Lane} {result : Lane}
    (hmap : map op lanes = .ok result) (hfits : ∀ lane ∈ lanes, lane.Fits n)
    (hplain : ∀ lane ∈ lanes, lane.carriesAttributes = false) (hi : i < n) :
    map op (lanes.map (·.inIteration i)) = .ok (result.inIteration i) ∧ result.Fits n := by
  unfold map at hmap
  split at hmap
  · rename_i op x
    cases hmap
    refine ⟨?_, fits_unary (hfits x (by simp))⟩
    rw [inIteration_unary]
    rfl
  · rename_i op x y
    have hx := hfits x (by simp)
    have hy := hfits y (by simp)
    split at hmap
    · cases hmap
    · rename_i hshapes
      cases hmap
      have hresult : map (.binary op) [x.inIteration i, y.inIteration i] =
          .ok ⟨op.map (x.inIteration i).values (y.inIteration i).values, false, none, true⟩ := by
        simp [map]
      -- shapes were checked: if one operand varies, the other one varies too or is a single number
      by_cases hvarying : (x.varying || y.varying) = true
      · have hfitting : x.fitsVarying = true ∧ y.fitsVarying = true := by
          cases hxvarying : x.varying <;> cases hyvarying : y.varying <;>
            simp_all [fitsVarying]
        refine ⟨?_, fun _ => ⟨size_binary op hx hy (Nat.zero_lt_of_lt hi) hfitting.1 hfitting.2
          hvarying, rfl⟩⟩
        rw [inIteration_binary op hx hy hi hfitting.1 hfitting.2 hvarying]
        exact hresult
      · obtain ⟨hxfixed, hyfixed⟩ : x.varying = false ∧ y.varying = false := by
          simpa using hvarying
        refine ⟨?_, fun h => absurd h hvarying⟩
        rw [inIteration_of_not_varying (by simpa using hvarying)]
        rw [inIteration_of_not_varying hxfixed, inIteration_of_not_varying hyfixed] at hresult
        simp only [List.map_cons, List.map_nil, inIteration_of_not_varying hxfixed,
          inIteration_of_not_varying hyfixed, hresult, hxfixed, hyfixed, Bool.or_false]
  · cases hmap

/-- What is added in one iteration is the only number of the lane there. -/
theorem increments_inIteration {lane : Lane} {increments : Array Float} (hfits : lane.Fits n)
    (h : lane.increments n = .ok increments) :
    lane.carriesAttributes = false ∧ increments.size = n ∧
      ∀ i < n, ∃ x, increments[i]? = some x ∧ (lane.inIteration i).values = #[x] := by
  unfold Lane.increments at h
  split at h
  · cases h
  rename_i hplain
  refine ⟨by simpa using hplain, ?_⟩
  split at h
  · -- a lane that varies is its own list of increments
    rename_i hvarying
    cases h
    obtain ⟨hsize, -⟩ := hfits hvarying
    refine ⟨hsize, fun i hi => ⟨lane.values[i], by simp, ?_⟩⟩
    have hlt : i < lane.values.size := hsize ▸ hi
    simp [inIteration, hvarying, hlt]
  · -- one that does not adds its only number each time
    rename_i hfixed
    split at h
    · rename_i x hx
      cases h
      refine ⟨by simp, fun i hi => ⟨x, by simp [hi], ?_⟩⟩
      rw [inIteration_of_not_varying (by simpa using hfixed)]
      exact Array.toList_inj.1 hx
    · cases h

end Lane

/-! ## Evaluating a loop expression -/

namespace LoopExpr

variable {sequence : Array Float} {given : List (Symbol × DoubleVector)} {kernels : KernelTable}
  {lane : Lane}

theorem evaluate_map {op : ElementwiseOp} {operands : List LoopExpr}
    (h : (map op operands).evaluate sequence given kernels = .ok lane) :
    ∃ lanes, evaluateAll sequence given kernels operands = .ok lanes ∧
      (∀ l ∈ lanes, l.carriesAttributes = false) ∧ Lane.map op lanes = .ok lane := by
  rw [evaluate] at h
  rcases hlanes : evaluateAll sequence given kernels operands with _ | lanes <;> rw [hlanes] at h
  · cases h
  · change (if lanes.any Lane.carriesAttributes then _ else _) = _ at h
    split at h
    · cases h
    · rename_i hplain
      exact ⟨lanes, rfl, by simpa using hplain, h⟩

theorem evaluate_computation {name : String} {operand : LoopExpr}
    (h : (computation name operand).evaluate sequence given kernels = .ok lane) :
    ∃ l, operand.evaluate sequence given kernels = .ok l ∧ l.compute kernels name = .ok lane := by
  rw [evaluate] at h
  rcases hlane : operand.evaluate sequence given kernels with _ | l <;> rw [hlane] at h
  · cases h
  · exact ⟨l, rfl, h⟩

theorem evaluateAll_cons {e : LoopExpr} {rest : List LoopExpr} {lanes : List Lane}
    (h : evaluateAll sequence given kernels (e :: rest) = .ok lanes) :
    ∃ l others, e.evaluate sequence given kernels = .ok l ∧
      evaluateAll sequence given kernels rest = .ok others ∧ lanes = l :: others := by
  rw [evaluateAll] at h
  rcases hlane : e.evaluate sequence given kernels with _ | l <;> rw [hlane] at h
  · cases h
  rcases hothers : evaluateAll sequence given kernels rest with _ | others <;> rw [hothers] at h
  · cases h
  · cases h
    exact ⟨l, others, rfl, rfl, rfl⟩

theorem evaluateAll_singleton {e : LoopExpr} (h : e.evaluate sequence given kernels = .ok lane) :
    evaluateAll sequence given kernels [e] = .ok [lane] := by
  simp [evaluateAll, h, bind, Except.bind, pure, Except.pure]

theorem eq_of_evaluateAll_singleton {e : LoopExpr} {lanes : List Lane}
    (h : evaluateAll sequence given kernels [e] = .ok lanes) : ∃ lane, lanes = [lane] := by
  obtain ⟨lane, _, -, hothers, rfl⟩ := evaluateAll_cons h
  cases hothers
  exact ⟨lane, rfl⟩

end LoopExpr

theorem Lane.fits_of_not_varying {lane : Lane} (h : lane.varying = false) (n : Nat) :
    lane.Fits n := fun hvarying => by
  rw [h] at hvarying
  cases hvarying

/-- A computation gives a lane that does not vary, and wants one. -/
theorem Lane.compute_ok {kernels : KernelTable} {name : String} {lane result : Lane}
    (h : lane.compute kernels name = .ok result) :
    lane.varying = false ∧ ∃ kernel values, kernels.get? name = some kernel ∧
      kernel.compute name ⟨lane.values, lane.extents⟩ = some values ∧
      result = .constant values := by
  unfold compute at h
  split at h
  · cases h
  rename_i hfixed
  split at h
  · cases h
  rename_i kernel hkernel
  split at h
  · cases h
  rename_i values hvalues
  cases h
  exact ⟨by simpa using hfixed, kernel, values, hkernel, hvalues, rfl⟩

mutual

/-- A lane that varies has a number for each element of the sequence. -/
theorem LoopExpr.fits_of_evaluate {sequence : Array Float} {given : List (Symbol × DoubleVector)}
    {kernels : KernelTable} (hpos : 0 < sequence.size) {e : LoopExpr} {lane : Lane}
    (h : e.evaluate sequence given kernels = .ok lane) : lane.Fits sequence.size := by
  match e with
  | .index =>
    cases h
    exact fun _ => ⟨rfl, rfl⟩
  | .constant x =>
    cases h
    exact Lane.fits_of_not_varying rfl _
  | .invariant name =>
    rw [LoopExpr.evaluate] at h
    split at h
    · cases h
      exact Lane.fits_of_not_varying rfl _
    · cases h
  | .map op operands =>
    obtain ⟨lanes, hlanes, hplain, hmap⟩ := LoopExpr.evaluate_map h
    exact (Lane.map_inIteration hmap (LoopExpr.fits_of_evaluateAll hpos hlanes) hplain hpos).2
  | .computation name operand =>
    obtain ⟨l, -, hcompute⟩ := LoopExpr.evaluate_computation h
    obtain ⟨-, _, values, -, -, rfl⟩ := Lane.compute_ok hcompute
    exact Lane.fits_of_not_varying rfl _

theorem LoopExpr.fits_of_evaluateAll {sequence : Array Float}
    {given : List (Symbol × DoubleVector)} {kernels : KernelTable} (hpos : 0 < sequence.size)
    {operands : List LoopExpr} {lanes : List Lane}
    (h : LoopExpr.evaluateAll sequence given kernels operands = .ok lanes) :
    ∀ lane ∈ lanes, lane.Fits sequence.size := by
  match operands with
  | [] =>
    cases h
    exact fun _ hmem => nomatch hmem
  | e :: rest =>
    obtain ⟨l, others, hlane, hothers, rfl⟩ := LoopExpr.evaluateAll_cons h
    exact List.forall_mem_cons.2
      ⟨LoopExpr.fits_of_evaluate hpos hlane, LoopExpr.fits_of_evaluateAll hpos hothers⟩

end

end CallByNeed
