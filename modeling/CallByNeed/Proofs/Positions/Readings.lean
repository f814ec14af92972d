import CallByNeed.Loop.Analysis
import CallByNeed.Loop.Run
import CallByNeed.Proofs.Heap.Collection
import CallByNeed.Proofs.Interning
import Mathlib.Data.List.FinRange

/-!
# Reading by position

Vectors, argument lists, frames and names are held in arrays and read by
position.  Here the routines that do so are spelled out with the positions that
they read.  A position outside the array, a remainder by zero and a difference
below zero give `none`.  No routine ever comes to that: each is equal to the
one that it spells out, whose types leave no room for such a reading.

What a position relies on is a test made before it (the length of a string
vector, the product of two extents), or a fact about the heap: the free slots of
a well-formed heap are there, and a collection frees no more frames than there
are.
-/

namespace CallByNeed.Positional

variable {α : Type}

/-! ## Arithmetic on positions -/

/-- The remainder of a position; there is none by zero. -/
def remainder (i n : Nat) : Option Nat := if n = 0 then none else some (i % n)

/-- The difference of two counts, if it is not below zero. -/
def difference (n m : Nat) : Option Nat := if m ≤ n then some (n - m) else none

/-- The elements from one position up to another. -/
def slice (xs : Array α) (first last : Nat) : Option (Array α) :=
  if first ≤ last ∧ last ≤ xs.size then some (xs.extract first last) else none

theorem remainder_eq {n : Nat} (h : 0 < n) (i : Nat) : remainder i n = some (i % n) :=
  if_neg (Nat.ne_of_gt h)

theorem difference_eq {n m : Nat} (h : m ≤ n) : difference n m = some (n - m) := if_pos h

theorem slice_eq {xs : Array α} {first last : Nat} (h : first ≤ last) (hsize : last ≤ xs.size) :
    slice xs first last = some (xs.extract first last) :=
  if_pos ⟨h, hsize⟩

/-! ## Readings that may fail -/

/-- An action that reads by position and may fail: `none` if a position is not there. -/
abbrev ReadM (ε : Type) := ExceptT ε Option

section

variable {ε : Type}

/-- What was read, which must be there. -/
def there (found : Option α) : ReadM ε α := ExceptT.lift found

/-- An action that ends so and reads no position that is not there. -/
def ends (r : Except ε α) : ReadM ε α := ExceptT.mk (some r)

theorem there_some (a : α) : (there (some a) : ReadM ε α) = pure a := rfl

theorem ends_ok (a : α) : ends (.ok a) = (pure a : ReadM ε α) := rfl

theorem ends_bind {β : Type} (r : Except ε α) (f : α → Except ε β) :
    ends (r >>= f) = ends r >>= fun a => ends (f a) := by
  cases r <;> rfl

theorem mapM_ends {β : Type} {f : α → ReadM ε β} {g : α → Except ε β} {items : List α}
    (h : ∀ a ∈ items, f a = ends (g a)) : items.mapM f = ends (items.mapM g) := by
  induction items with
  | nil => rfl
  | cons a rest ih =>
    rw [List.mapM_cons, List.mapM_cons, h a (.head _), ih fun b hb => h b (.tail _ hb)]
    cases g a with
    | error e => rfl
    | ok b => cases rest.mapM g <;> rfl

end

/-! ## Recycled vectors -/

/-- The element at `i` of a vector that is repeated for ever. -/
def recycled (xs : Array Float) (i : Nat) : Option Float := do
  xs[← remainder i xs.size]?

/-- Combine two vectors element by element, recycling the shorter one. -/
def zipRecycled (f : Float → Float → α) (xs ys : Array Float) : Option (Array α) := do
  let combined ← (List.range (recycledSize xs.size ys.size)).mapM fun i => do
    return f (← recycled xs i) (← recycled ys i)
  return combined.toArray

theorem recycled_eq {xs : Array Float} (nonempty : 0 < xs.size) (i : Nat) :
    recycled xs i = some (CallByNeed.recycled xs nonempty i) := by
  simp only [recycled, remainder_eq nonempty, CallByNeed.recycled, Option.bind_eq_bind,
    Option.bind_some]
  exact Array.getElem?_eq_getElem _

/-- Readings one after the other, if each is there. -/
theorem mapM_eq_some_map {β : Type} {read : α → Option β} {f : α → β} {items : List α}
    (h : ∀ a ∈ items, read a = some (f a)) : items.mapM read = some (items.map f) := by
  induction items with
  | nil => rfl
  | cons a rest ih =>
    rw [List.mapM_cons, h a (.head _), ih fun b hb => h b (.tail _ hb)]
    rfl

/-- A reading of all positions in turn, if each is there. -/
theorem mapM_range {n : Nat} {read : Nat → Option α} {f : Fin n → α}
    (h : ∀ i : Fin n, read i = some (f i)) :
    (List.range n).mapM read = some (Array.ofFn f).toList := by
  rw [← List.map_coe_finRange_eq_range, List.mapM_map, Array.toList_ofFn, List.ofFn_eq_map]
  exact mapM_eq_some_map fun i _ => h i

theorem zipRecycled_eq (f : Float → Float → α) (xs ys : Array Float) :
    zipRecycled f xs ys = some (CallByNeed.zipRecycled f xs ys) := by
  unfold zipRecycled CallByNeed.zipRecycled
  by_cases h : 0 < xs.size ∧ 0 < ys.size
  · rw [dif_pos h, mapM_range fun i => by rw [recycled_eq h.1, recycled_eq h.2]; rfl]
    rfl
  · have hsize : recycledSize xs.size ys.size = 0 := if_pos (by omega)
    rw [dif_neg h, hsize]
    rfl

/-! ## Matrices -/

/-- The means of the rows of a matrix, read cell by cell. -/
def rowMeans (cells : Array Float) (rows cols : Nat) : Option (Array Float) := do
  let means ← (List.range rows).mapM fun r => do
    let row ← (List.range cols).mapM fun c => cells[c * rows + r]?
    return row.foldl (· + ·) 0 / cols.toFloat
  return means.toArray

/-- The sums of the columns of a matrix, each of them a slice of the cells. -/
def colSums (cells : Array Float) (rows cols : Nat) : Option (Array Float) := do
  let sums ← (List.range cols).mapM fun c => do
    return sum (← slice cells (c * rows) ((c + 1) * rows))
  return sums.toArray

theorem cell_eq (m : Matrix) (r : Fin m.rows) (c : Fin m.cols) :
    m.cells[c * m.rows + r]? = some (m.cell r c) :=
  Array.getElem?_eq_getElem (m.index_lt r c)

theorem rowMeans_eq (m : Matrix) : rowMeans m.cells m.rows m.cols = some m.rowMeans := by
  unfold rowMeans
  rw [mapM_range (f := fun r => m.rowSum r / m.cols.toFloat) fun r => ?_]
  · rfl
  · rw [mapM_range fun c => cell_eq m r c]
    simp [Matrix.rowSum, List.ofFn_eq_map, List.foldl_map]

example : rowMeans #[] 1 1 = none := by rfl

/-- A column is the slice of the cells from its first one up to that of the next column. -/
theorem extract_column (m : Matrix) (c : Fin m.cols) :
    m.cells.extract (c * m.rows) ((c + 1) * m.rows) = Array.ofFn fun r => m.cell r c := by
  have hsize := m.size_eq
  have hc : (c + 1) * m.rows ≤ m.cols * m.rows := Nat.mul_le_mul_right _ c.isLt
  rw [Nat.mul_comm m.rows] at hsize
  rw [Nat.add_mul, Nat.one_mul] at hc ⊢
  refine Array.ext (by simp; omega) fun r hr hr' => ?_
  simp [Matrix.cell]

theorem colSums_eq (m : Matrix) : colSums m.cells m.rows m.cols = some m.colSums := by
  have hsize := m.size_eq
  rw [Nat.mul_comm] at hsize
  unfold colSums
  rw [mapM_range (f := m.colSum) fun c => ?_]
  · rfl
  · have hc : (c + 1) * m.rows ≤ m.cols * m.rows := Nat.mul_le_mul_right _ c.isLt
    rw [slice_eq (Nat.mul_le_mul_right _ (Nat.le_succ _)) (hsize ▸ hc), extract_column]
    simp [Matrix.colSum, sum, sumFrom, ← Array.foldl_toList, List.ofFn_eq_map, List.foldl_map]

/-! ## Vectors of known length -/

/-- The only string of a vector of length one. -/
def singleString? : Value → Option (Option String)
  | .vector ⟨_, .character xs, _⟩ =>
    if xs.size = 1 then do return some (← xs[0]?) else some none
  | _ => some none

/-- The extents in a `dim` attribute of length two. -/
def extents? (attributes : Attributes) : Option (Option (Nat × Nat)) :=
  match attributes.get? .dimAttribute with
  | some (.vector ⟨_, .double d, _⟩) =>
    if d.size = 2 then do
      let rows ← d[0]?
      let cols ← d[1]?
      return do return (← extentOf? rows, ← extentOf? cols)
    else some none
  | _ => some none

/-- The element at `i` as a vector of its own. -/
def single (elements : Elements) (i : Nat) : Option Elements :=
  match elements with
  | .logical xs => do return .logical #[← xs[i]?]
  | .double xs => do return .double #[← xs[i]?]
  | .character xs => do return .character #[← xs[i]?]

theorem singleString?_eq (v : Value) : singleString? v = some v.singleString? := by
  cases v with
  | vector v =>
    obtain ⟨identity, elements, attributes⟩ := v
    cases elements with
    | character xs =>
      obtain ⟨_ | ⟨text, _ | ⟨other, rest⟩⟩⟩ := xs <;> simp [singleString?, Value.singleString?]
    | _ => rfl
  | _ => rfl

theorem extents?_eq (attributes : Attributes) :
    extents? attributes = some attributes.extents? := by
  unfold extents? AttributeList.extents?
  rcases attributes.get? .dimAttribute with _ | dim
  · rfl
  · cases dim with
    | vector v =>
      obtain ⟨identity, elements, others⟩ := v
      cases elements with
      | double d => obtain ⟨_ | ⟨rows, _ | ⟨cols, _ | ⟨other, rest⟩⟩⟩⟩ := d <;> simp
      | _ => rfl
    | _ => rfl

/-! ## Attribute lists -/

/-- Set an attribute where its name stands, or at the end; NULL takes it out. -/
def setAttribute (attributes : Attributes) (name : Symbol) (value : Value) : Option Attributes :=
  match attributes.entries.findIdx? (·.1 == name), value with
  | some i, .null => do
    let _ ← attributes.entries[i]?
    return ⟨attributes.entries.eraseIdx i⟩
  | some i, value => do
    let (known, _) ← attributes.entries[i]?
    return ⟨attributes.entries.set i (known, value)⟩
  | none, .null => some attributes
  | none, value => some ⟨attributes.entries ++ [(name, value)]⟩

theorem put_eq (name : Symbol) (value : Value) (entries : List (Symbol × Value)) :
    Assoc.put name value entries =
      match entries.findIdx? (·.1 == name) with
      | some i => entries.set i (name, value)
      | none => entries ++ [(name, value)] := by
  induction entries with
  | nil => rfl
  | cons entry rest ih =>
    by_cases h : entry.1 = name
    · simp [Assoc.put, List.findIdx?_cons, h]
    · cases hrest : rest.findIdx? (·.1 == name) <;>
        simp [Assoc.put, List.findIdx?_cons, h, ih, hrest]

theorem setAttribute_eq (attributes : Attributes) (name : Symbol) (value : Value) :
    setAttribute attributes name value = some (attributes.set name value) := by
  obtain ⟨entries⟩ := attributes
  unfold setAttribute AttributeList.set
  simp only [put_eq, Assoc.erase, List.eraseP_eq_eraseIdx]
  cases hfound : entries.findIdx? (·.1 == name) with
  | none => cases value <;> rfl
  | some i =>
    obtain ⟨hi, hname, -⟩ := List.findIdx?_eq_some_iff_getElem.1 hfound
    rw [beq_iff_eq] at hname
    cases value <;> simp [List.getElem?_eq_getElem hi, hname]

/-! ## Matrices in builtins and kernels -/

def marginOf : Margin → Array Float → Nat → Nat → Option (Array Float)
  | .rowMeans => rowMeans
  | .colSums => colSums

/-- The kernel that implements a margin. -/
def kernelOf : Margin → Kernel
  | .rowMeans => .rowMean
  | .colSums => .colSum

/-- What the kernel of a margin computes: it wants the extents of a matrix of that many cells. -/
def marginKernel (op : Margin) (operation : String) (input : KernelOperand) :
    Option (Option (Array Float)) :=
  match input.extents with
  | some (rows, cols) =>
    if operation = op.name ∧ rows * cols = input.values.size then do
      return some (← marginOf op input.values rows cols)
    else some none
  | none => some none

theorem marginOf_eq (op : Margin) (m : Matrix) :
    marginOf op m.cells m.rows m.cols = some (Builtin.marginOf op m) := by
  cases op with
  | rowMeans => exact rowMeans_eq m
  | colSums => exact colSums_eq m

theorem marginKernel_eq (op : Margin) (operation : String) (input : KernelOperand) :
    marginKernel op operation input = some ((kernelOf op).compute operation input) := by
  obtain ⟨cells, extents⟩ := input
  have hcompute : (kernelOf op).compute operation ⟨cells, extents⟩ =
      if operation = op.name then
        (extents.bind (Matrix.ofCells? cells)).map (Builtin.marginOf op)
      else none := by
    cases op <;> rfl
  rw [hcompute]
  match extents with
  | none => simp [marginKernel]
  | some (rows, cols) =>
    by_cases hname : operation = op.name
    · by_cases hsize : rows * cols = cells.size
      · have hread : marginOf op cells rows cols =
            some (Builtin.marginOf op ⟨rows, cols, cells, hsize⟩) :=
          marginOf_eq op ⟨rows, cols, cells, hsize⟩
        simp [marginKernel, Matrix.ofCells?, hname, hsize, hread]
      · simp [marginKernel, Matrix.ofCells?, hsize]
    · simp [marginKernel, hname]

/-! ## Frames -/

/-- Place a frame in the slot freed last, which must be there, or in a new slot. -/
def insert (h : Heap) (f : Frame) : Option (EnvId × Heap) :=
  match h.free with
  | index :: rest => do
    let slot ← h.slots[index]?
    return (⟨index, slot.generation⟩,
      { h with
        live := h.live + 1
        allocatedSinceCollect := h.allocatedSinceCollect + 1
        free := rest
        slots := h.slots.modify index fun slot => { slot with frame := some f } })
  | [] => some (h.insert f)

/-- Free the frames that were not reached; there must be as many frames. -/
def sweep (h : Heap) : Option (Nat × Heap) := do
  let (freed, swept) := h.sweep
  let live ← difference h.live freed
  return (freed, { swept with live, stats := { swept.stats with liveFrames := live } })

/-- Free every frame that is not reachable from `roots` or `values`. -/
def collect (h : Heap) (store : PromiseStore) (roots : List EnvId) (values : List Value) :
    Option (Option (Nat × Heap)) :=
  match (valuesLinks store values).bind fun links => h.mark store (roots ++ links) with
  | some marked => do return some (← sweep marked)
  | none => some none

theorem insert_eq {h : Heap} (hwf : h.WellFormed) (f : Frame) :
    insert h f = some (h.insert f) := by
  unfold insert
  cases hfree : h.free with
  | nil => rfl
  | cons index rest =>
    obtain ⟨slot, hslot, -⟩ := hwf.free.1 (hfree ▸ List.mem_cons_self : index ∈ h.free)
    simp [hslot, Heap.insert_of_free hfree, Heap.generationOf]

theorem sweep_eq {m : Heap} (hwf : m.unmark.WellFormed) : sweep m = some m.sweep := by
  have hle : m.sweep.1 ≤ m.live := by
    have hlive : m.live = m.unmark.occupied := hwf.live
    have hcount := m.occupied_sweep
    rw [hlive, m.occupied_unmark]
    omega
  simp only [sweep, difference_eq hle]
  rfl

theorem collect_eq {h : Heap} (hwf : h.WellFormed) (store : PromiseStore) (roots : List EnvId)
    (values : List Value) :
    collect h store roots values = some (h.collect store roots values) := by
  unfold collect Heap.collect
  cases hlinks : valuesLinks store values with
  | none => rfl
  | some links =>
    simp only [Option.bind_some, Option.bind_eq_bind]
    cases hmark : h.mark store (roots ++ links) with
    | none => rfl
    | some marked =>
      have hm : h.Marking store (· ∈ roots ++ links) [] marked :=
        hwf.marking_mark (fun _ => Iff.rfl) hmark
      simp only [sweep_eq (hm.unmark ▸ hwf)]
      rfl

/-! ## Interned names -/

/-- The symbol of a numbered handle, where the numbers start from one. -/
def symbolOf (table : SymbolTable) (number : Nat) : Option Symbol := do
  let i ← difference number 1
  return ⟨← table.names[i]?⟩

theorem symbolOf_eq (table : SymbolTable) (id : SymbolId) :
    symbolOf table (id.index + 1) = table.resolve? id := by
  rw [symbolOf, difference_eq (Nat.le_add_left 1 _)]
  simp [SymbolTable.resolve?, Option.map_eq_bind]

/-- The reserved handles and those that were given out stand for a symbol from then on. -/
theorem isSome_symbolOf {names : List String} {id : SymbolId} (later : List String)
    (h : id ∈ SymbolTable.missingId :: SymbolTable.ellipsisId ::
      (SymbolTable.initial.internAll names).1) :
    (symbolOf ((SymbolTable.initial.internAll names).2.internAll later).2
      (id.index + 1)).isSome := by
  obtain ⟨s, hs⟩ : ∃ s, (SymbolTable.initial.internAll names).2.resolve? id = some s := by
    obtain rfl | h := List.mem_cons.1 h
    · exact ⟨.missing, SymbolTable.resolve?_internAll_of_some names rfl⟩
    obtain rfl | h := List.mem_cons.1 h
    · exact ⟨.ellipsis, SymbolTable.resolve?_internAll_of_some names rfl⟩
    exact SymbolTable.resolve?_of_mem_internAll h
  rw [symbolOf_eq, SymbolTable.resolve?_internAll_of_some later hs]
  rfl

end CallByNeed.Positional
