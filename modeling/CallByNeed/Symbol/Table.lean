import CallByNeed.Assoc
import CallByNeed.Symbol

/-!
# Symbol tables

A table gives each name a handle, once.  A handle is a 32-bit word other than
zero: the position of the name among those interned, shifted by one.  The table
keeps the names in the order in which they were first interned, to resolve a
handle, and the handles under their names, to find the one that a name was given.
A new table already holds the two reserved names, in the first two positions.

The words run out after `SymbolId.capacity` names; every name after that gets a
word that stands for an earlier one.
-/

namespace CallByNeed

/-- The handle of an interned name. -/
structure SymbolId where
  word : UInt32
  word_ne_zero : word ≠ 0
  deriving DecidableEq, Repr

namespace SymbolId

/-- The number of handles that there are. -/
def capacity : Nat := UInt32.size - 1

/-- The position of the name among the interned ones. -/
def index (id : SymbolId) : Nat := id.word.toNat - 1

/-- The handle for some bits: the next word, or the largest word if there is no next one. -/
def ofBits (bits : UInt32) : SymbolId :=
  if h : bits + 1 = 0 then ⟨bits, fun hbits => by simp [hbits] at h⟩ else ⟨bits + 1, h⟩

/-- The handle for a position, of which only the last 32 bits count. -/
def ofIndex (i : Nat) : SymbolId := ofBits (UInt32.ofNat i)

@[ext] theorem ext {a b : SymbolId} (h : a.word = b.word) : a = b := by
  cases a
  cases b
  cases h
  rfl

theorem word_pos (id : SymbolId) : 0 < id.word.toNat := by
  have h : id.word.toNat ≠ 0 := fun h => id.word_ne_zero (UInt32.toNat_inj.1 h)
  omega

theorem index_inj {a b : SymbolId} (h : a.index = b.index) : a = b := by
  have ha := a.word_pos
  have hb := b.word_pos
  unfold index at h
  exact ext (UInt32.toNat_inj.1 (by omega))

theorem toNat_word_ofBits (bits : UInt32) :
    (ofBits bits).word.toNat = min (bits.toNat + 1) capacity := by
  have hlt := bits.toNat_lt
  have hnext : (bits + 1).toNat = (bits.toNat + 1) % UInt32.size := UInt32.toNat_add _ _
  unfold ofBits
  split
  · rename_i hzero
    rw [hzero] at hnext
    simp only [UInt32.toNat_zero, capacity, UInt32.size] at hnext ⊢
    omega
  · rename_i hzero
    have hpos : (bits + 1).toNat ≠ 0 := fun h => hzero (UInt32.toNat_inj.1 h)
    simp only [capacity, UInt32.size] at hnext ⊢
    omega

/-- Handles count positions modulo 2^32, and the last two share one. -/
theorem index_ofIndex_eq (i : Nat) : (ofIndex i).index = min (i % UInt32.size) (capacity - 1) := by
  rw [index, ofIndex, toNat_word_ofBits, UInt32.toNat_ofNat']
  simp only [capacity, UInt32.size]
  omega

/-- A position that has a word of its own is the one that its handle stands for. -/
theorem index_ofIndex {i : Nat} (h : i < capacity) : (ofIndex i).index = i := by
  rw [index_ofIndex_eq]
  simp only [capacity, UInt32.size] at h ⊢
  omega

/-- A handle stands for the position that it was made for, or for an earlier one. -/
theorem index_ofIndex_le (i : Nat) : (ofIndex i).index ≤ i := by
  rw [index_ofIndex_eq]
  exact Nat.le_trans (Nat.min_le_left _ _) (Nat.mod_le _ _)

/-- The first position without a word of its own shares that of the position before. -/
theorem ofIndex_capacity : ofIndex capacity = ofIndex (capacity - 1) :=
  index_inj (by rw [index_ofIndex_eq, index_ofIndex_eq]; rfl)

end SymbolId

/-- The names interned so far, oldest first, and the handle of each. -/
structure SymbolTable where
  names : List String
  handles : List (String × SymbolId)
  deriving DecidableEq, Repr

namespace SymbolTable

def empty : SymbolTable := ⟨[], []⟩

/-- The handle of `name`, which is added to the table if it is new. -/
def intern (table : SymbolTable) (name : String) : SymbolId × SymbolTable :=
  match table.handles.lookup name with
  | some id => (id, table)
  | none =>
    let id := SymbolId.ofIndex table.names.length
    (id, ⟨table.names ++ [name], Assoc.put name id table.handles⟩)

/-- The symbol a handle stands for. -/
def resolve? (table : SymbolTable) (id : SymbolId) : Option Symbol :=
  (table.names[id.index]?).map Symbol.mk

/-- The handles of `names`, interned from left to right. -/
def internAll (table : SymbolTable) : List String → List SymbolId × SymbolTable
  | [] => ([], table)
  | name :: rest =>
    let (id, table) := table.intern name
    let (ids, table) := table.internAll rest
    (id :: ids, table)

/-- The table that holds the two reserved names only. -/
def initial : SymbolTable := (empty.internAll [Symbol.missing.name, Symbol.ellipsis.name]).2

def missingId : SymbolId := ⟨1, by decide⟩

def ellipsisId : SymbolId := ⟨2, by decide⟩

theorem names_initial : initial.names = [Symbol.missing.name, Symbol.ellipsis.name] := rfl

/-- Interning a name leaves the names there were, or adds it to them. -/
theorem names_intern (table : SymbolTable) (name : String) :
    (table.intern name).2.names = table.names ∨
      (table.intern name).2.names = table.names ++ [name] := by
  unfold intern
  split
  · exact .inl rfl
  · exact .inr rfl

/-- Interning a name leaves what the earlier handles stand for. -/
theorem resolve?_intern_of_some {table : SymbolTable} {id : SymbolId} {s : Symbol} (name : String)
    (h : table.resolve? id = some s) : (table.intern name).2.resolve? id = some s := by
  rcases table.names_intern name with hsame | hadded
  · rwa [resolve?, hsame]
  · have hlt : id.index < table.names.length := by
      simp only [resolve?, Option.map_eq_some_iff] at h
      obtain ⟨text, htext, -⟩ := h
      exact (List.getElem?_eq_some_iff.1 htext).1
    rw [resolve?, hadded, List.getElem?_append_left hlt]
    exact h

/-- The handles given out so far keep what they stand for. -/
theorem resolve?_internAll_of_some {table : SymbolTable} {id : SymbolId} {s : Symbol}
    (names : List String) (h : table.resolve? id = some s) :
    (table.internAll names).2.resolve? id = some s := by
  induction names generalizing table with
  | nil => exact h
  | cons name rest ih => exact ih (resolve?_intern_of_some name h)

end SymbolTable

end CallByNeed
