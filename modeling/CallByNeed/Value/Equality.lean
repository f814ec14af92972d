import CallByNeed.Value.Basic

/-!
# Identity and equality of values

Two values are identical if they are the same shared value, or equal
immediates; an argument list is never identical to anything, since it is not
shared as a whole.  Two values are equal if vectors, calls and argument lists
agree in structure and everything else is identical.  Numbers are compared as
numbers, so a vector that holds a NaN does not equal itself.
-/

namespace CallByNeed

/-- Element-wise equality; vectors of different types are different. -/
def Elements.beq : Elements → Elements → Bool
  | logical xs, logical ys => xs == ys
  | double xs, double ys => xs == ys
  | character xs, character ys => xs == ys
  | _, _ => false

namespace Value

/-- Whether both are the same shared value, or equal immediates. -/
def identical : Value → Value → Bool
  | null, null => true
  | symbol a, symbol b => a == b
  | environment a, environment b => a == b
  | vector a, vector b => a.identity == b.identity
  | call a, call b => a.identity == b.identity
  | closure a, closure b => a.identity == b.identity
  | builtin a _, builtin b _ => a == b
  | promise a, promise b => a == b
  | _, _ => false

mutual

/-- Structural equality. -/
def beq : Value → Value → Bool
  | vector ⟨_, xs, ⟨as⟩⟩, vector ⟨_, ys, ⟨bs⟩⟩ => xs.beq ys && entriesBeq as bs
  | call ⟨_, f, as⟩, call ⟨_, g, bs⟩ => beq f g && argsBeq as bs
  | list as, list bs => argsBeq as bs
  | dots as, dots bs => argsBeq as bs
  | a, b => identical a b

/-- Equality of argument lists: the same tags and equal values in the same order. -/
def argsBeq : List (Arg Value) → List (Arg Value) → Bool
  | [], [] => true
  | ⟨s, a⟩ :: as, ⟨t, b⟩ :: bs => s == t && beq a b && argsBeq as bs
  | _, _ => false

/-- Equality of attribute lists: the same names and equal values in the same order. -/
def entriesBeq : List (Symbol × Value) → List (Symbol × Value) → Bool
  | [], [] => true
  | (s, a) :: as, (t, b) :: bs => s == t && beq a b && entriesBeq as bs
  | _, _ => false

end

instance : BEq Value := ⟨beq⟩

end Value

end CallByNeed
