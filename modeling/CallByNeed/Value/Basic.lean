import CallByNeed.Builtin
import CallByNeed.Symbol

/-!
# Values

Values double as expressions: a call is an unevaluated application, a symbol is
a variable, everything else stands for itself.  Calls, vectors, closures and
builtins are shared, not copied, so each carries the identity it was created
with; a promise and an environment are references into the stores of a session
(`PromiseId`, `EnvId`).  An argument list pairs values with optional tags and
serves for formals and actuals alike.
-/

namespace CallByNeed

/-- A reference to a frame: the slot it occupies and the number of times that slot had been freed
    before. -/
structure EnvId where
  index : Nat
  generation : UInt32
  deriving DecidableEq, Repr, Inhabited

structure PromiseId where
  index : Nat
  deriving DecidableEq, Repr, Inhabited

structure Identity where
  index : Nat
  deriving DecidableEq, Repr, Inhabited

/-- The elements of an atomic vector. -/
inductive Elements where
  | logical (values : Array Bool)
  | double (values : Array Float)
  | character (values : Array String)
  deriving Inhabited

/-- One cell of an argument list. -/
structure Arg (α : Type) where
  tag : Option Symbol
  value : α

/-- The attributes of a vector, in the order in which they were set. -/
structure AttributeList (α : Type) where
  entries : List (Symbol × α)

/-- A vector with attributes. -/
structure VectorOf (α : Type) where
  identity : Identity
  elements : Elements
  attributes : AttributeList α

/-- An unevaluated application of a function expression to argument expressions. -/
structure CallOf (α : Type) where
  identity : Identity
  function : α
  args : List (Arg α)

/-- A function of the language: formals with their default expressions, a body and the environment
    in which it was defined. -/
structure ClosureOf (α : Type) where
  identity : Identity
  formals : List (Arg α)
  body : α
  env : EnvId

/-- A value or an expression. -/
inductive Value where
  | null
  | symbol (name : Symbol)
  | vector (v : VectorOf Value)
  | call (c : CallOf Value)
  | list (args : List (Arg Value))
  /-- What `...` is bound to. -/
  | dots (args : List (Arg Value))
  | closure (c : ClosureOf Value)
  | builtin (identity : Identity) (b : Builtin)
  | promise (id : PromiseId)
  | environment (id : EnvId)

instance : Inhabited Value := ⟨.null⟩

abbrev ArgList := List (Arg Value)

abbrev Attributes := AttributeList Value

abbrev Vec := VectorOf Value

abbrev Call := CallOf Value

abbrev Closure := ClosureOf Value

/-- An argument; the empty name is no tag. -/
def Arg.new {α : Type} (tag : Option Symbol) (value : α) : Arg α :=
  ⟨tag.bind Symbol.asTag?, value⟩

def Arg.untagged {α : Type} (value : α) : Arg α := ⟨none, value⟩

def Arg.tagged {α : Type} (tag : Symbol) (value : α) : Arg α := .new (some tag) value

namespace ArgList

def push (args : ArgList) (tag : Option Symbol) (value : Value) : ArgList :=
  args ++ [Arg.new tag value]

/-- The value of the first argument with this tag. -/
def valueOf? (args : ArgList) (tag : Symbol) : Option Value :=
  (args.find? fun arg => arg.tag == some tag).map (·.value)

def positionOf? (args : ArgList) (tag : Symbol) : Option Nat :=
  args.findIdx? fun arg => arg.tag == some tag

end ArgList

namespace Elements

def size : Elements → Nat
  | logical xs => xs.size
  | double xs => xs.size
  | character xs => xs.size

def typeName : Elements → String
  | logical _ => "logical"
  | double _ => "double"
  | character _ => "character"

end Elements

namespace Value

def missingArg : Value := .symbol .missing

def isMissingArg : Value → Bool
  | symbol s => s.isMissing
  | _ => false

def isEllipsis : Value → Bool
  | symbol s => s.isEllipsis
  | _ => false

def isNull : Value → Bool
  | null => true
  | _ => false

def isFunction : Value → Bool
  | closure _ => true
  | builtin _ _ => true
  | _ => false

@[simp] theorem isMissingArg_missingArg : missingArg.isMissingArg = true := rfl

theorem isMissingArg_iff {v : Value} : v.isMissingArg = true ↔ v = missingArg := by
  cases v <;> simp [isMissingArg, missingArg]

end Value

end CallByNeed
