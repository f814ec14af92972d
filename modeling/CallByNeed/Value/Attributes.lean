import CallByNeed.Assoc
import CallByNeed.Value.Basic

/-!
# Attribute lists

An attribute list is an ordered map.  Setting an attribute to NULL removes it,
setting it again replaces it in place, and a new one goes to the end.  Merging
keeps the left list and adds the attributes of the right one that the left one
does not have.  The laws below describe the operations through `get?`.
-/

namespace CallByNeed.AttributeList

def empty : Attributes := ⟨[]⟩

instance : Inhabited Attributes := ⟨empty⟩

def isEmpty (attrs : Attributes) : Bool := attrs.entries.isEmpty

def get? (attrs : Attributes) (name : Symbol) : Option Value := attrs.entries.lookup name

def contains (attrs : Attributes) (name : Symbol) : Bool := (attrs.get? name).isSome

/-- Set an attribute; NULL removes it. -/
def set (attrs : Attributes) (name : Symbol) : Value → Attributes
  | .null => ⟨Assoc.erase name attrs.entries⟩
  | value => ⟨Assoc.put name value attrs.entries⟩

/-- The attributes of `left`, followed by those of `right` that `left` does not have. -/
def merged (left right : Attributes) : Attributes :=
  right.entries.foldl (fun out entry =>
    if out.contains entry.1 then out else ⟨out.entries ++ [entry]⟩) left

/-- The list that arises when the entries are set one after the other. -/
def ofEntries (entries : List (Symbol × Value)) : Attributes :=
  entries.foldl (fun attrs entry => attrs.set entry.1 entry.2) empty

theorem set_eq_put {attrs : Attributes} {name : Symbol} {value : Value} (h : value ≠ .null) :
    attrs.set name value = ⟨Assoc.put name value attrs.entries⟩ := by
  cases value <;> first | exact absurd rfl h | rfl

/-- An attribute that was set is found, unless it was set to NULL. -/
theorem get?_set_self {attrs : Attributes} {name : Symbol} {value : Value} (h : value ≠ .null) :
    (attrs.set name value).get? name = some value := by
  rw [set_eq_put h]
  exact Assoc.lookup_put_self _ _ _

/-- Setting one attribute leaves every other one as it was. -/
theorem get?_set_of_ne {attrs : Attributes} {name other : Symbol} (value : Value)
    (h : other ≠ name) : (attrs.set name value).get? other = attrs.get? other := by
  by_cases hnull : value = .null
  · subst hnull
    exact Assoc.lookup_erase_of_ne _ h
  · rw [set_eq_put hnull]
    exact Assoc.lookup_put_of_ne _ _ h

end CallByNeed.AttributeList
