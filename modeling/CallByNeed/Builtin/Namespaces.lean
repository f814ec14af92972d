import CallByNeed.Builtin.Answer
import CallByNeed.Dispatch.Methods

/-!
# Builtins on namespaces

A namespace is meant by its environment or by its name.  Naming one loads it;
only `getRegisteredNamespace` asks for one without loading it.
-/

namespace CallByNeed

namespace SessionM

/-- The namespace of this name, which is loaded if it is not there. -/
def loadNamespace (name : Symbol) : SessionM Namespace :=
  modifyGet fun s =>
    let (ns, namespaces, heap) := s.namespaces.load s.heap name
    (ns, { s with namespaces, heap })

def namespaceOf (value : Value) : SessionM Namespace := do
  let notNamespace := EvalError.invalidArgument "not a namespace"
  match value with
  | .environment env =>
    match (← get).namespaces.byEnv? env with
    | some ns => return ns
    | none => fail notNamespace
  | other =>
    match other.nameText? with
    | some name => loadNamespace ⟨name⟩
    | none => fail notNamespace

/-- The name of a namespace as the language shows it. -/
def namespaceName (ns : Namespace) : SessionM Value := do
  if ns.env = (← get).namespaces.baseEnv then newString Namespaces.baseName.name
  else
    let tag ← newString "name"
    newVector (.character #[ns.name.name]) (.set .empty ⟨"names"⟩ tag)

end SessionM

/-- The environment that a value is, or `default` if the value was not supplied. -/
def environmentOr (default : EnvId) (value : Value) : Except EvalError EnvId :=
  match value with
  | .environment id => .ok id
  | _ =>
    if value.isMissingArg then .ok default
    else .error (.invalidArgument ("'envir' must be an environment, not " ++ value.typeName))

namespace Evaluator

variable (ev : Evaluator)

/-- Register a method; the environment is the calling one unless it is given. -/
def registerMethodBuiltin (args : ArgList) (env : EnvId) : SessionM Value := do
  let builtin := NamespaceQuery.registerMethod.name
  let values ← SessionM.ofExcept (argsByName args ["genname", "class", "method", "envir"])
  let generic ← SessionM.ofExcept (requireArg builtin values 0)
  let generic ← SessionM.ofExcept (nameArg generic "genname")
  let className ← SessionM.ofExcept (requireArg builtin values 1)
  let className ← SessionM.ofExcept (nameArg className "class")
  let method ← SessionM.ofExcept (requireArg builtin values 2)
  let env ← SessionM.ofExcept (environmentOr env (values[3]?.getD .missingArg))
  ev.registerMethodFrom generic className method env
  return .null

def runNamespaceQuery (query : NamespaceQuery) (args : ArgList) (env : EnvId) : SessionM Value := do
  let only (formal : String) : SessionM Value := do
    let values ← SessionM.ofExcept (argsByName args [formal])
    SessionM.ofExcept (requireArg query.name values 0)
  match query with
  | .registerMethod => ev.registerMethodBuiltin args env
  | .load =>
    let name ← SessionM.ofExcept (nameArg (← only "name") "name")
    return .environment (← SessionM.loadNamespace ⟨name⟩).env
  | .isNamespace =>
    match ← only "ns" with
    | .environment id => SessionM.newLogical ((← get).namespaces.isNamespaceEnv id)
    | _ => SessionM.newLogical false
  | .loaded => SessionM.newStrings ((← get).namespaces.names.map Symbol.name)
  | .nameOf => SessionM.namespaceName (← SessionM.namespaceOf (← only "ns"))
  | .exportsOf =>
    let ns ← SessionM.namespaceOf (← only "ns")
    SessionM.newStrings (ns.exports.map Symbol.name)
  | .importsOf =>
    let ns ← SessionM.namespaceOf (← only "ns")
    let _ ← SessionM.ofExcept ((← get).namespaces.imports ns.name)
    return .null
  | .lookUp =>
    let name ← SessionM.ofExcept (nameArg (← only "name") "name")
    match (← get).namespaces.registered? name with
    | some id => return .environment id
    | none => return .null

end Evaluator

end CallByNeed
