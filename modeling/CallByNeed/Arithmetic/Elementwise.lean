import CallByNeed.Arithmetic.Operator

/-!
# Elementwise arithmetic on vectors

Two vectors of different lengths are combined by recycling: the shorter one
starts again from its first element.  The result has the longer length, and is
empty as soon as one operand is.  Sums are folded from the left, so that their
rounding is fixed.
-/

namespace CallByNeed

/-- The element of a non-empty vector that stands at `i` when the vector is repeated for ever. -/
def recycled (xs : Array Float) (nonempty : 0 < xs.size) (i : Nat) : Float :=
  have : i % xs.size < xs.size := Nat.mod_lt i nonempty
  xs[i % xs.size]

/-- The length of two recycled vectors: the longer one, or nothing if one is empty. -/
def recycledSize (n m : Nat) : Nat := if n = 0 ∨ m = 0 then 0 else max n m

/-- Combine two vectors element by element, recycling the shorter one. -/
def zipRecycled {α : Type} (f : Float → Float → α) (xs ys : Array Float) : Array α :=
  if h : 0 < xs.size ∧ 0 < ys.size then
    Array.ofFn fun i : Fin (recycledSize xs.size ys.size) =>
      f (recycled xs h.1 i) (recycled ys h.2 i)
  else #[]

def UnaryOp.map (op : UnaryOp) (xs : Array Float) : Array Float := xs.map op.apply

def BinaryOp.map (op : BinaryOp) (xs ys : Array Float) : Array Float := zipRecycled op.apply xs ys

def Comparison.map (op : Comparison) (xs ys : Array Float) : Array Bool := zipRecycled op.test xs ys

/-- The elements added to `start` from left to right. -/
def sumFrom (start : Float) (xs : Array Float) : Float := xs.foldl (· + ·) start

def sum (xs : Array Float) : Float := sumFrom 0 xs

def notANumber : Float := 0 / 0

/-- The arithmetic mean; that of no elements is not a number. -/
def mean (xs : Array Float) : Float :=
  if xs.isEmpty then notANumber else sum xs / xs.size.toFloat

@[simp] theorem UnaryOp.size_map (op : UnaryOp) (xs : Array Float) :
    (op.map xs).size = xs.size := by simp [UnaryOp.map]

@[simp] theorem size_zipRecycled {α : Type} (f : Float → Float → α) (xs ys : Array Float) :
    (zipRecycled f xs ys).size = recycledSize xs.size ys.size := by
  unfold zipRecycled
  split
  · simp
  · rename_i h
    simp only [recycledSize]
    split
    · simp
    · omega

@[simp] theorem BinaryOp.size_map (op : BinaryOp) (xs ys : Array Float) :
    (op.map xs ys).size = recycledSize xs.size ys.size := size_zipRecycled _ _ _

end CallByNeed
