import CallByNeed.Value.Basic

/-!
# Errors

An error names its cause; `EvalError.message` is its wording.  A return that is
on its way to the invocation it leaves is not an error but an `Interrupt`, and
so is running out of the fuel that bounds an evaluation.
-/

namespace CallByNeed

/-- Why an evaluation failed. -/
inductive EvalError where
  /-- No frame of the scope binds the name. -/
  | unboundSymbol (name : Symbol)
  /-- No frame of the scope binds the name to a function. -/
  | functionNotFound (name : Symbol)
  /-- Two arguments name the same formal. -/
  | multipleMatch (formal : Symbol)
  /-- The tag of an argument begins several formals. -/
  | partialMatchAmbiguous (actual : Symbol) (candidates : List Symbol)
  /-- A formal without default got no argument. -/
  | unmatchedArgument (formal : Symbol)
  /-- An argument fits no formal; its position counts from zero. -/
  | unusedArgument (tag : Option Symbol) (position : Nat)
  /-- A formal that got no argument was evaluated. -/
  | argumentMissing (name : Symbol)
  /-- The name of a generic stands for something other than a function. -/
  | unresolvableGeneric (generic typeName : String)
  /-- A namespace or a generic is not there. -/
  | notFound (text : String)
  /-- Neither a method for a class nor a default method is there. -/
  | noApplicableMethod (generic className : String)
  | notAFunction (typeName : String)
  | recursivePromise
  /-- The invocation to return from is over. -/
  | deadFrameReturn
  | stackOverflow (depth : Nat)
  | staleEnvironment (id : EnvId)
  | typeError (text : String)
  | invalidArgument (text : String)
  | unsupported (operation : String)
  /-- The exports of a namespace were changed after it was sealed. -/
  | namespaceSealed (name : Symbol)
  deriving DecidableEq, Repr

/-- Why an evaluation has no value. -/
inductive Interrupt where
  | failure (error : EvalError)
  /-- A return on its way to the invocation whose environment is `target`. -/
  | returning (target : EnvId) (value : Value)
  /-- The fuel of the evaluation is used up. -/
  | exhausted

def EnvId.inspect (id : EnvId) : String :=
  "EnvId \x7b index: " ++ toString id.index ++ ", generation: " ++ toString id.generation.toNat
    ++ " \x7d"

/-- The wording for a formal that got no argument. -/
def missingArgumentText (formal : Symbol) : String :=
  "argument \"" ++ formal.name ++ "\" is missing, with no default"

def EvalError.message : EvalError → String
  | unboundSymbol name => "object '" ++ name.name ++ "' not found"
  | functionNotFound name => "could not find function \"" ++ name.name ++ "\""
  | multipleMatch formal =>
    "formal argument \"" ++ formal.name ++ "\" matched by multiple actual arguments"
  | partialMatchAmbiguous actual candidates =>
    "argument '" ++ actual.name ++ "' matches multiple formal arguments: "
      ++ ", ".intercalate (candidates.map Symbol.name)
  | unmatchedArgument formal => missingArgumentText formal
  | unusedArgument (some tag) _ => "unused argument (" ++ tag.name ++ " = ...)"
  | unusedArgument none position => "unused argument at position " ++ toString (position + 1)
  | argumentMissing name => missingArgumentText name
  | unresolvableGeneric generic typeName =>
    "cannot resolve namespace environment from generic function '" ++ generic ++ "' of type '"
      ++ typeName ++ "'"
  | notFound text => text
  | noApplicableMethod generic className =>
    "no applicable method for '" ++ generic ++ "' applied to an object of class \"" ++ className
      ++ "\""
  | notAFunction typeName => "attempt to apply non-function (got " ++ typeName ++ ")"
  | recursivePromise =>
    "promise already under evaluation: recursive default argument reference or earlier problems?"
  | deadFrameReturn => "no function to return from, jumping to top level"
  | stackOverflow depth =>
    "evaluation nested too deeply: infinite recursion? (depth " ++ toString depth ++ ")"
  | staleEnvironment id => "stale environment reference " ++ id.inspect
  | typeError text => text
  | invalidArgument text => "invalid argument: " ++ text
  | unsupported operation => operation ++ " is not supported"
  | namespaceSealed name => "namespace '" ++ name.name ++ "' is sealed"

def Interrupt.message : Interrupt → String
  | failure error => error.message
  | returning _ _ => "non-local return"
  | exhausted => "evaluation ran out of fuel"

end CallByNeed
