import CallByNeed.Evaluator.Basic

/-!
# Methods

A method of a generic function for a class is a function called
`generic.class`.  It may be visible where the generic is called, or be
registered in the methods table of the environment that defines the generic: an
environment of its own, bound under a reserved name and made when the first
method is registered.  Group generics and builtins are defined in the base
environment.
-/

namespace CallByNeed

def methodsTableName : Symbol := ⟨".__S3MethodsTable__."⟩

/-- The generics that stand for a group of builtins. -/
def groupGenericNames : List String := ["Ops", "Math", "Summary", "Complex"]

def methodName (generic className : String) : Symbol := ⟨generic ++ "." ++ className⟩

/-- The methods table of an environment, if it was made. -/
def Heap.methodsTable (h : Heap) (env : EnvId) : Except EvalError (Option EnvId) := do
  match ← h.getLocal env methodsTableName with
  | some (.environment id) => return some id
  | _ => return none

namespace SessionM

def methodsTable (env : EnvId) : SessionM (Option EnvId) := askHeap fun h => h.methodsTable env

/-- The methods table of an environment, which is made now if it was not. -/
def requireMethodsTable (env : EnvId) : SessionM EnvId := do
  match ← methodsTable env with
  | some table => return table
  | none =>
    let table ← allocate (some (← get).baseEnv)
    bindIn env methodsTableName (.environment table)
    return table

/-- Register a method with the environment that defines the generic; an earlier one for the same
    class is replaced. -/
def registerMethod (generic className : String) (method : Value) (definitionEnv : EnvId) :
    SessionM Unit := do
  let table ← requireMethodsTable definitionEnv
  bindIn table (methodName generic className) method

end SessionM

namespace Evaluator

variable (ev : Evaluator)

/-- The environment that defines a generic, as seen from `env`; none if no function is called so. -/
def genericEnv (generic : String) (env : EnvId) : SessionM (Option EnvId) := do
  let base := (← get).namespaces.baseEnv
  if groupGenericNames.contains generic then return some base
  match ← ev.function? env ⟨generic⟩ with
  | none => return none
  | some (.closure closure) => return some closure.env
  | some (.builtin _ _) => return some base
  | some other => SessionM.fail (.unresolvableGeneric generic other.typeName)

/-- The function that is meant by a method argument: a function itself, or the name of one. -/
def methodOf (method : Value) (env : EnvId) : SessionM Value := do
  if method.isFunction then return method
  match method.singleString? with
  | some name => ev.requireFunction env ⟨name⟩
  | none => SessionM.fail (.invalidArgument ("Invalid method argument of type " ++ method.typeName))

/-- Register a method, given as a function or by its name, for a generic known by its name. -/
def registerMethodFrom (generic className : String) (method : Value) (env : EnvId) :
    SessionM Unit := do
  match ← ev.genericEnv generic env with
  | none => SessionM.fail (.notFound ("Cannot find generic function '" ++ generic ++ "'"))
  | some definitionEnv =>
    let method ← ev.methodOf method env
    SessionM.registerMethod generic className method definitionEnv

end Evaluator

end CallByNeed
