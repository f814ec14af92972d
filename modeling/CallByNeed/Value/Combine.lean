import CallByNeed.Decimal.Shortest
import CallByNeed.Value.Inspect

/-!
# Combining vectors

Several vectors are combined into one by laying their elements end to end.  The
element type of the result is the widest one among them: strings if there are
any strings, numbers if there are any numbers, and truth values otherwise.
Narrower elements are converted (`Elements.numbers`, `Elements.texts`), so the
result has as many elements as the parts together.
-/

namespace CallByNeed.Elements

def texts : Elements → List String
  | logical xs => xs.toList.map fun b => if b then "TRUE" else "FALSE"
  | double xs => xs.toList.map decimalText
  | character xs => xs.toList

/-- The numbers of elements that are not strings. -/
def numbers : Elements → List Float
  | logical xs => xs.toList.map numberOfTruth
  | double xs => xs.toList
  | character _ => []

/-- The truth values of elements, if that is what they are. -/
def truths? : Elements → Option (List Bool)
  | logical xs => some xs.toList
  | _ => none

def areStrings : Elements → Bool
  | character _ => true
  | _ => false

/-- Several vectors as one: of strings if one of them has strings, of truth values if all have, and
    of numbers otherwise. -/
def combine (parts : List Elements) : Elements :=
  if parts.any areStrings then character (parts.flatMap texts).toArray
  else
    match parts.mapM truths? with
    | some truths => logical truths.flatten.toArray
    | none => double (parts.flatMap numbers).toArray

@[simp] theorem length_texts (xs : Elements) : xs.texts.length = xs.size := by
  cases xs <;> simp [texts, size]

theorem length_numbers {xs : Elements} (h : xs.areStrings = false) :
    xs.numbers.length = xs.size := by
  cases xs <;> simp_all [numbers, size, areStrings]

end CallByNeed.Elements
