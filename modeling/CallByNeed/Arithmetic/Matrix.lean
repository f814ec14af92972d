import CallByNeed.Arithmetic.Elementwise

/-!
# Matrices and their margins

A matrix is a vector of cells with two extents whose product is the number of
cells; the cells of a column are consecutive.  The length invariant is part of
the type, so every cell of every row and column is there, and the margins
(`Matrix.rowMeans`, `Matrix.colSums`) never look outside the vector.
-/

namespace CallByNeed

/-- A matrix of numbers, stored column by column. -/
structure Matrix where
  rows : Nat
  cols : Nat
  cells : Array Float
  size_eq : rows * cols = cells.size

namespace Matrix

/-- The matrix of the given extents over `cells`, if there are as many cells as the extents say. -/
def ofCells? (cells : Array Float) (extents : Nat × Nat) : Option Matrix :=
  if h : extents.1 * extents.2 = cells.size then some ⟨extents.1, extents.2, cells, h⟩ else none

theorem index_lt (m : Matrix) (r : Fin m.rows) (c : Fin m.cols) :
    c * m.rows + r < m.cells.size := by
  have hc : (c + 1) * m.rows ≤ m.cols * m.rows := Nat.mul_le_mul_right _ c.isLt
  have hsize := m.size_eq
  have hr := r.isLt
  rw [Nat.mul_comm m.rows] at hsize
  rw [Nat.add_mul, Nat.one_mul] at hc
  omega

def cell (m : Matrix) (r : Fin m.rows) (c : Fin m.cols) : Float :=
  have := m.index_lt r c
  m.cells[c * m.rows + r]

def rowSum (m : Matrix) (r : Fin m.rows) : Float :=
  (List.finRange m.cols).foldl (fun total c => total + m.cell r c) 0

def colSum (m : Matrix) (c : Fin m.cols) : Float :=
  (List.finRange m.rows).foldl (fun total r => total + m.cell r c) 0

def rowMeans (m : Matrix) : Array Float := Array.ofFn fun r => m.rowSum r / m.cols.toFloat

def colSums (m : Matrix) : Array Float := Array.ofFn fun c => m.colSum c

theorem ofCells?_isSome_iff {cells : Array Float} {extents : Nat × Nat} :
    (ofCells? cells extents).isSome ↔ extents.1 * extents.2 = cells.size := by
  unfold ofCells?
  split <;> simp_all

end Matrix

end CallByNeed
