import CallByNeed.Matching
import CallByNeed.Session.Basic
import CallByNeed.Value.Inspect

/-!
# Answers of builtins

Most eager builtins compute with the values of their arguments only.  What they
answer is either a value that was there before, or the contents of a new vector;
an `Answer` says which, and `SessionM.deliver` makes the new vector.
-/

namespace CallByNeed

/-- What a builtin answers. -/
inductive Answer where
  | existing (value : Value)
  | fresh (elements : Elements) (attributes : Attributes)

namespace Answer

def doubles (xs : Array Float) : Answer := fresh (.double xs) .empty

def double (x : Float) : Answer := doubles #[x]

def strings (texts : List String) : Answer := fresh (.character texts.toArray) .empty

end Answer

/-- The value that a builtin answered. -/
def SessionM.deliver : Except EvalError Answer → SessionM Value
  | .error e => fail e
  | .ok (.existing value) => pure value
  | .ok (.fresh elements attributes) => newVector elements attributes

/-- The numbers of a vector, where truth values count as zero and one; `context` names the use in
    the error. -/
def numbersOf (v : Value) (context : String) : Except EvalError (Array Float) :=
  match v with
  | .vector ⟨_, .double xs, _⟩ => .ok xs
  | .vector ⟨_, .logical xs, _⟩ => .ok (xs.map numberOfTruth)
  | .null => .ok #[]
  | _ =>
    .error (.typeError ("non-numeric argument to " ++ context ++ " (got " ++ v.typeName ++ ")"))

/-- The values that a builtin's arguments give to its formals; an unsupplied one is missing. -/
def argsByName (args : ArgList) (formals : List String) : Except EvalError (List Value) := do
  let formals := formals.map fun name => Arg.tagged ⟨name⟩ Value.missingArg
  return (← matchFormals formals args true).map (·.value)

/-- The value of the formal at position `i`, which must be supplied. -/
def requireArg (builtin : String) (values : List Value) (i : Nat) : Except EvalError Value :=
  let absent := EvalError.invalidArgument
    ("argument " ++ toString (i + 1) ++ " of '" ++ builtin ++ "' is missing")
  match values[i]? with
  | some value => if value.isMissingArg then .error absent else .ok value
  | none => .error absent

/-- A single string, or the spelling of a symbol; `what` names the argument in the error. -/
def nameArg (value : Value) (what : String) : Except EvalError String :=
  match value.nameText? with
  | some text => .ok text
  | none =>
    .error (.invalidArgument
      ("'" ++ what ++ "' must be a single string, not " ++ value.typeName))

end CallByNeed
