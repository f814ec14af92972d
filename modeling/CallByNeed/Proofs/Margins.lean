import CallByNeed.Builtin.Numeric
import CallByNeed.Proofs.Positions.Readings
import Mathlib.Data.Multiset.Bind

/-!
# Margins of a matrix

A margin adds up the cells of each row, or of each column, from left to right;
`Margin.positions` says where they are.  The kernel and the builtin of a margin
answer for the same vectors, and with the same numbers (`margin_column_major`).
What they read is there as soon as the product of the extents, checked for
overflow, is the number of cells.  Then the positions can be computed in words,
and over all results each cell is read once.
-/

namespace CallByNeed

/-! ## Words -/

/-- The product of two words, if it is one. -/
def checkedProduct (a b : UInt64) : Option UInt64 :=
  if a.toNat * b.toNat < UInt64.size then some (a * b) else none

theorem checkedProduct_eq_some_iff {a b : UInt64} {n : Nat} (hn : n < UInt64.size) :
    (∃ product, checkedProduct a b = some product ∧ product.toNat = n) ↔
      a.toNat * b.toNat = n := by
  have hproduct (hlt : a.toNat * b.toNat < UInt64.size) :
      (a * b).toNat = a.toNat * b.toNat := by
    rw [UInt64.toNat_mul, Nat.mod_eq_of_lt hlt]
  unfold checkedProduct
  constructor
  · rintro ⟨product, hsome, rfl⟩
    split at hsome
    · rename_i hlt
      cases hsome
      exact (hproduct hlt).symm
    · cases hsome
  · rintro rfl
    exact ⟨a * b, if_pos hn, hproduct hn⟩

/-- Where a column starts and ends, and where its cells are, can be computed in words if the cells
    of all columns can be counted in one. -/
theorem toNat_column {rows cols c : UInt64} {n : Nat} (hn : n < UInt64.size)
    (hproduct : rows.toNat * cols.toNat = n) (hc : c < cols) :
    (c * rows).toNat = c.toNat * rows.toNat ∧
      ((c + 1) * rows).toNat = (c.toNat + 1) * rows.toNat ∧
      (c.toNat + 1) * rows.toNat ≤ n ∧
      ∀ r < rows, (c * rows + r).toNat = c.toNat * rows.toNat + r.toNat ∧
        c.toNat * rows.toNat + r.toNat < n := by
  have hc : c.toNat < cols.toNat := hc
  -- the end of the column is within the vector, which bounds every product and sum here
  have hlast : (c.toNat + 1) * rows.toNat ≤ n := by
    rw [← hproduct, Nat.mul_comm rows.toNat]
    exact Nat.mul_le_mul_right _ hc
  have hnext : (c + 1).toNat = c.toNat + 1 := by
    rw [UInt64.toNat_add, UInt64.toNat_one, Nat.mod_eq_of_lt]
    exact Nat.lt_of_le_of_lt hc cols.toNat_lt
  have hfirst : c.toNat * rows.toNat + rows.toNat ≤ n := by rwa [← Nat.succ_mul]
  have hstart : (c * rows).toNat = c.toNat * rows.toNat := by
    rw [UInt64.toNat_mul, Nat.mod_eq_of_lt]
    exact Nat.lt_of_le_of_lt (by omega) hn
  refine ⟨hstart, ?_, hlast, fun r hr => ?_⟩
  · rw [UInt64.toNat_mul, hnext, Nat.mod_eq_of_lt (Nat.lt_of_le_of_lt hlast hn)]
  · have hr : r.toNat < rows.toNat := hr
    have hcell : c.toNat * rows.toNat + r.toNat < n := by omega
    refine ⟨?_, hcell⟩
    rw [UInt64.toNat_add, hstart, Nat.mod_eq_of_lt (Nat.lt_trans hcell hn)]

/-- Parsed extents are words. -/
theorem AttributeList.exists_words_of_extents? {attributes : Attributes} {extents : Nat × Nat}
    (h : attributes.extents? = some extents) :
    ∃ rows cols : UInt64, extents = (rows.toNat, cols.toNat) := by
  -- an extent is the truncation of a float to a word
  have hword {x : Float} {n : Nat} (hx : extentOf? x = some n) : ∃ w : UInt64, n = w.toNat := by
    unfold extentOf? at hx
    split at hx
    · exact ⟨x.toUInt64, (Option.some.inj hx).symm⟩
    · cases hx
  unfold AttributeList.extents? at h
  split at h
  · split at h
    · obtain ⟨rows, hrows, h⟩ := Option.bind_eq_some_iff.1 h
      obtain ⟨cols, hcols, h⟩ := Option.bind_eq_some_iff.1 h
      cases h
      obtain ⟨r, rfl⟩ := hword hrows
      obtain ⟨c, rfl⟩ := hword hcols
      exact ⟨r, c, rfl⟩
    · cases h
  · cases h

/-! ## Positions of cells -/

namespace Margin

/-- The number of results. -/
def results : Margin → (rows cols : Nat) → Nat
  | rowMeans, rows, _ => rows
  | colSums, _, cols => cols

/-- Where the cells of the result at `k` are, in the order in which they are added. -/
def positions : Margin → (rows cols k : Nat) → List Nat
  | rowMeans, rows, cols, r => (List.range cols).map fun c => c * rows + r
  | colSums, rows, _, c => (List.range rows).map fun r => c * rows + r

/-- The result that the total of some cells gives. -/
def ofTotal : Margin → (cols : Nat) → Float → Float
  | rowMeans, cols, total => total / cols.toFloat
  | colSums, _, total => total

end Margin

/-- Column by column, the positions are those of the whole vector in order. -/
theorem flatMap_columns (rows cols : Nat) :
    (List.range cols).flatMap (fun c => (List.range rows).map fun r => c * rows + r) =
      List.range (rows * cols) := by
  induction cols with
  | zero => rfl
  | succ cols ih =>
    rw [List.range_succ, List.flatMap_append, ih, List.flatMap_singleton, Nat.mul_succ,
      List.range_add, Nat.mul_comm cols rows]

/-- Over all results, each cell is read once. -/
theorem Margin.perm_positions (op : Margin) (rows cols : Nat) :
    ((List.range (op.results rows cols)).flatMap (op.positions rows cols)).Perm
      (List.range (rows * cols)) := by
  cases op with
  | colSums => exact .of_eq (flatMap_columns rows cols)
  | rowMeans =>
    change ((List.range rows).flatMap fun r => (List.range cols).map fun c => c * rows + r).Perm _
    rw [← flatMap_columns, ← Multiset.coe_eq_coe]
    have hswap := Multiset.bind_map_comm (List.range rows : Multiset Nat) (List.range cols)
      (f := fun r c => c * rows + r)
    simpa [Multiset.coe_bind, Function.comp_def] using hswap

/-! ## Kernel and builtin -/

/-- A kernel computes its margin of the matrix that its operand is. -/
theorem Margin.compute_kernelOf (op : Margin) (input : KernelOperand) :
    (Positional.kernelOf op).compute op.name input =
      input.matrix?.map (Builtin.marginOf op) := by
  cases op <;> rfl

/-- A margin of a vector of numbers succeeds if the vector is a matrix. -/
theorem Builtin.margin_double (op : Margin) (tag : Option Symbol) (identity : Identity)
    (xs : Array Float) (attributes : Attributes) (rest : ArgList) :
    Builtin.margin op (⟨tag, .vector ⟨identity, .double xs, attributes⟩⟩ :: rest) =
      match KernelOperand.matrix? ⟨xs, attributes.extents?⟩ with
      | some m => .ok (.doubles (Builtin.marginOf op m))
      | none => .error (.invalidArgument
          ("'x' must be an array of at least two dimensions in '" ++ op.name ++ "'")) := by
  simp only [Builtin.margin, Builtin.matrixArg, List.head?_cons, Option.map_some,
    KernelOperand.matrix?]
  cases attributes.extents?.bind (Matrix.ofCells? xs) <;> rfl

theorem Margin.compute_eq_some_iff {op : Margin} {xs ys : Array Float} {rows cols : Nat} :
    (Positional.kernelOf op).compute op.name ⟨xs, some (rows, cols)⟩ = some ys ↔
      ∃ m : Matrix, m.rows = rows ∧ m.cols = cols ∧ m.cells = xs ∧ Builtin.marginOf op m = ys := by
  rw [op.compute_kernelOf, Option.map_eq_some_iff]
  constructor
  · rintro ⟨m, hm, rfl⟩
    change Matrix.ofCells? xs (rows, cols) = some m at hm
    unfold Matrix.ofCells? at hm
    split at hm
    · cases hm
      exact ⟨_, rfl, rfl, rfl, rfl⟩
    · cases hm
  · rintro ⟨m, rfl, rfl, rfl, rfl⟩
    exact ⟨m, dif_pos m.size_eq, rfl⟩

/-! ## Cells of a matrix -/

section

variable (op : Margin) (m : Matrix)

theorem Builtin.size_marginOf : (Builtin.marginOf op m).size = op.results m.rows m.cols := by
  cases op <;> exact Array.size_ofFn

/-- Each result comes from the cells at its positions, and the cells of a column are a slice. -/
theorem Builtin.getElem?_marginOf {k : Nat} (hk : k < op.results m.rows m.cols) :
    ∃ cells, (op.positions m.rows m.cols k).mapM (m.cells[·]?) = some cells ∧
      (Builtin.marginOf op m)[k]? = some (op.ofTotal m.cols (cells.foldl (· + ·) 0)) ∧
      (op = .colSums → cells = (m.cells.extract (k * m.rows) ((k + 1) * m.rows)).toList) := by
  have hsize : k < (Builtin.marginOf op m).size := (Builtin.size_marginOf op m).symm ▸ hk
  cases op with
  | rowMeans =>
    let r : Fin m.rows := ⟨k, hk⟩
    refine ⟨(List.finRange m.cols).map (m.cell r), ?_, ?_, nofun⟩
    · rw [Margin.positions, List.mapM_map, ← List.ofFn_eq_map, ← Array.toList_ofFn]
      exact Positional.mapM_range fun c => Positional.cell_eq m r c
    · rw [List.foldl_map, Array.getElem?_eq_getElem hsize]
      exact congrArg some (Array.getElem_ofFn _)
  | colSums =>
    let c : Fin m.cols := ⟨k, hk⟩
    refine ⟨(List.finRange m.rows).map fun r => m.cell r c, ?_, ?_, fun _ => ?_⟩
    · rw [Margin.positions, List.mapM_map, ← List.ofFn_eq_map, ← Array.toList_ofFn]
      exact Positional.mapM_range fun r => Positional.cell_eq m r c
    · rw [List.foldl_map, Array.getElem?_eq_getElem hsize]
      exact congrArg some (Array.getElem_ofFn _)
    · rw [Positional.extract_column m c, Array.toList_ofFn, List.ofFn_eq_map]

end

/-! ## Margins of a vector -/

/-- The kernel of a margin answers for a vector exactly if the builtin does, with the same numbers.
    A vector has no more cells than a word can count.  The kernel answers for the extents whose
    product does not overflow and is the number of cells.  Each result then comes from the cells at
    its positions, added up from the left; the positions can be computed in words, they are inside
    the vector, and over all results each position of the vector is there once. -/
theorem margin_column_major (op : Margin) {xs : Array Float} (hxs : xs.size < UInt64.size) :
    (∀ (tag : Option Symbol) (identity : Identity) (attributes : Attributes) (rest : ArgList),
      let computed := (Positional.kernelOf op).compute op.name ⟨xs, attributes.extents?⟩
      let answered := Builtin.margin op (⟨tag, .vector ⟨identity, .double xs, attributes⟩⟩ :: rest)
      (∀ ys, computed = some ys ↔ answered = .ok (.doubles ys)) ∧
      (computed = none ↔ ∃ e, answered = .error e) ∧
      ∀ extents, attributes.extents? = some extents →
        ∃ rows cols : UInt64, extents = (rows.toNat, cols.toNat)) ∧
    ∀ rows cols : UInt64,
      let computed := (Positional.kernelOf op).compute op.name ⟨xs, some (rows.toNat, cols.toNat)⟩
      let positions := op.positions rows.toNat cols.toNat
      (computed.isSome ↔ ∃ n, checkedProduct rows cols = some n ∧ n.toNat = xs.size) ∧
      ∀ ys, computed = some ys →
        ys.size = op.results rows.toNat cols.toNat ∧
        (∀ k < ys.size, ∃ cells, (positions k).mapM (xs[·]?) = some cells ∧
          ys[k]? = some (op.ofTotal cols.toNat (cells.foldl (· + ·) 0)) ∧
          (op = .colSums →
            cells = (xs.extract (k * rows.toNat) ((k + 1) * rows.toNat)).toList)) ∧
        (∀ c < cols, (c * rows).toNat = c.toNat * rows.toNat ∧
          ((c + 1) * rows).toNat = (c.toNat + 1) * rows.toNat ∧
          (c.toNat + 1) * rows.toNat ≤ xs.size ∧
          ∀ r < rows, (c * rows + r).toNat = c.toNat * rows.toNat + r.toNat ∧
            c.toNat * rows.toNat + r.toNat < xs.size) ∧
        ((List.range ys.size).flatMap positions).Perm (List.range xs.size) := by
  refine ⟨fun tag identity attributes rest => ?_, fun rows cols => ⟨?_, fun ys hys => ?_⟩⟩
  · simp only [Builtin.margin_double, op.compute_kernelOf]
    refine ⟨?_, ?_, fun _ => AttributeList.exists_words_of_extents?⟩
    · rcases KernelOperand.matrix? ⟨xs, attributes.extents?⟩ with _ | m <;>
        simp [Answer.doubles]
    · rcases KernelOperand.matrix? ⟨xs, attributes.extents?⟩ with _ | m <;> simp
  · rw [op.compute_kernelOf, Option.isSome_map, checkedProduct_eq_some_iff hxs]
    exact Matrix.ofCells?_isSome_iff
  · obtain ⟨m, hrows, hcols, rfl, rfl⟩ := Margin.compute_eq_some_iff.1 hys
    have hproduct : rows.toNat * cols.toNat = m.cells.size := hrows ▸ hcols ▸ m.size_eq
    have hsize := Builtin.size_marginOf op m
    rw [hrows, hcols] at hsize
    refine ⟨hsize, fun k hk => ?_, fun c hc => toNat_column hxs hproduct hc, ?_⟩
    · rw [← hrows, ← hcols]
      exact Builtin.getElem?_marginOf op m (Builtin.size_marginOf op m ▸ hk)
    · rw [hsize, ← hproduct]
      exact op.perm_positions _ _

/-- The two rows of a matrix with three columns, and the rows of one that has none. -/
theorem margin_column_major_rows :
    (∃ ys, Kernel.rowMean.compute "rowMeans" ⟨#[1, 2, 3, 4, 5, 6], some (2, 3)⟩ = some ys ∧
      ys.size = 2 ∧ ys[1]? = some ((0 + 2 + 4 + 6) / Nat.toFloat 3)) ∧
    ∃ ys, Kernel.rowMean.compute "rowMeans" ⟨#[], some (2, 0)⟩ = some ys ∧ ys.size = 2 := by
  obtain ⟨-, hsix⟩ := margin_column_major .rowMeans
    (show (#[1, 2, 3, 4, 5, 6] : Array Float).size < UInt64.size by decide)
  obtain ⟨-, hnone⟩ := margin_column_major .rowMeans
    (show (#[] : Array Float).size < UInt64.size by decide)
  obtain ⟨hanswers, hread⟩ := hsix 2 3
  obtain ⟨hanswers', hread'⟩ := hnone 2 0
  obtain ⟨ys, hys⟩ := Option.isSome_iff_exists.1 (hanswers.2 ⟨6, by decide, rfl⟩)
  obtain ⟨zs, hzs⟩ := Option.isSome_iff_exists.1 (hanswers'.2 ⟨0, by decide, rfl⟩)
  obtain ⟨hsize, hcells, -⟩ := hread ys hys
  have hsize : ys.size = 2 := hsize
  obtain ⟨cells, hcells, htotal, -⟩ := hcells 1 (by omega)
  cases hcells
  exact ⟨⟨ys, hys, hsize, htotal⟩, zs, hzs, (hread' zs hzs).1⟩

end CallByNeed
