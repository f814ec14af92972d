import CallByNeed.Value.Attributes

/-!
# Looking at values

The type, length, class and extents of a value, and its readings as a number, a
condition or a string.  A reading looks at the first element only and answers
`none` where there is none or the type does not fit.
-/

namespace CallByNeed

/-- A matrix extent: a whole number from nothing to the largest 32-bit integer. -/
def extentOf? (x : Float) : Option Nat :=
  if x >= 0 && x <= 2147483647 && x.floor == x then some x.toUInt64.toNat else none

/-- The rows and columns that a two-element `dim` attribute declares. -/
def AttributeList.extents? (attrs : Attributes) : Option (Nat × Nat) :=
  match attrs.get? .dimAttribute with
  | some (.vector ⟨_, .double d, _⟩) =>
    match d.toList with
    | [rows, cols] => do return (← extentOf? rows, ← extentOf? cols)
    | _ => none
  | _ => none

/-- The truth value of a number as a number. -/
def numberOfTruth (b : Bool) : Float := if b then 1 else 0

namespace Value

def typeName : Value → String
  | null => "NULL"
  | symbol _ => "symbol"
  | vector v => v.elements.typeName
  | call _ => "language"
  | list _ => "pairlist"
  | dots _ => "..."
  | closure _ => "closure"
  | builtin _ (.special _) => "special"
  | builtin _ (.eager _) => "builtin"
  | promise _ => "promise"
  | environment _ => "environment"

/-- The number of elements; whatever is no vector and no list counts as one. -/
def length : Value → Nat
  | null => 0
  | vector v => v.elements.size
  | list args => args.length
  | dots args => args.length
  | _ => 1

def attributes? : Value → Option Attributes
  | vector v => some v.attributes
  | _ => none

def attribute? (v : Value) (name : Symbol) : Option Value := do (← v.attributes?).get? name

def hasClassAttribute (v : Value) : Bool := (v.attribute? .classAttribute).isSome

/-- The class of a value that declares none. -/
def implicitClass : Value → List String
  | vector ⟨_, .double _, attrs⟩ =>
    if attrs.extents?.isSome then ["matrix", "array", "double", "numeric"]
    else ["double", "numeric"]
  | vector ⟨_, .logical _, _⟩ => ["logical"]
  | vector ⟨_, .character _, _⟩ => ["character"]
  | closure _ => ["function"]
  | builtin _ _ => ["function"]
  | null => ["NULL"]
  | call _ => ["call"]
  | symbol _ => ["name"]
  | environment _ => ["environment"]
  | list _ => ["pairlist"]
  | dots _ => ["pairlist"]
  | promise _ => ["promise"]

/-- The classes that dispatch tries, in order: the declared ones, or the implicit ones. -/
def classes (v : Value) : List String :=
  match v.attribute? .classAttribute with
  | some (vector ⟨_, .character names, _⟩) => names.toList
  | _ => v.implicitClass

def doubles? : Value → Option (Array Float)
  | vector ⟨_, .double xs, _⟩ => some xs
  | _ => none

def elements? : Value → Option Elements
  | vector v => some v.elements
  | _ => none

def number? : Value → Option Float
  | vector ⟨_, .double xs, _⟩ => xs[0]?
  | vector ⟨_, .logical xs, _⟩ => xs[0]?.map numberOfTruth
  | _ => none

/-- The first element as a condition; a NaN is none. -/
def condition? : Value → Option Bool
  | vector ⟨_, .logical xs, _⟩ => xs[0]?
  | vector ⟨_, .double xs, _⟩ => (xs[0]?.filter fun x => !x.isNaN).map (· != 0)
  | _ => none

def string? : Value → Option String
  | vector ⟨_, .character xs, _⟩ => xs[0]?
  | _ => none

/-- The only element of a character vector of length one. -/
def singleString? : Value → Option String
  | vector ⟨_, .character xs, _⟩ =>
    match xs.toList with
    | [text] => some text
    | _ => none
  | _ => none

/-- A single string, or the spelling of a symbol. -/
def nameText? : Value → Option String
  | symbol s => if s.isMissing then none else some s.name
  | v => v.singleString?

end Value

end CallByNeed
