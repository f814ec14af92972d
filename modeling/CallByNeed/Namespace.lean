import CallByNeed.Heap.Basic

/-!
# Namespaces

A namespace is a named environment with a list of exports.  It comes into being
when it is first asked for and stays.  Sealing it fixes its exports.  The base
environment is the namespace `base`, which is there and sealed from the start.
`Namespaces` finds a namespace by its name, and the name by its environment.
-/

namespace CallByNeed

structure Namespace where
  name : Symbol
  env : EnvId
  /-- The exported names, in the order in which they were exported. -/
  exports : List Symbol
  isSealed : Bool
  deriving DecidableEq, Repr

namespace Namespace

/-- Export a name, once; a sealed namespace exports nothing more. -/
def export? (ns : Namespace) (name : Symbol) : Except EvalError Namespace :=
  if ns.isSealed then .error (.namespaceSealed ns.name)
  else if ns.exports.contains name then .ok ns
  else .ok { ns with exports := ns.exports ++ [name] }

/-- Seal the namespace, which fixes its exports. -/
def freeze (ns : Namespace) : Namespace := { ns with isSealed := true }

end Namespace

def noNamespace (name : Symbol) : EvalError :=
  .notFound ("there is no namespace called '" ++ name.name ++ "'")

structure Namespaces where
  loaded : List (Symbol × Namespace)
  owners : List (EnvId × Symbol)
  baseEnv : EnvId

namespace Namespaces

def baseName : Symbol := ⟨"base"⟩

/-- The base namespace only. -/
def initial (baseEnv : EnvId) : Namespaces :=
  { loaded := [(baseName, ⟨baseName, baseEnv, [], true⟩)]
    owners := [(baseEnv, baseName)]
    baseEnv }

def get? (known : Namespaces) (name : Symbol) : Option Namespace :=
  known.loaded.lookup name

def require (known : Namespaces) (name : Symbol) : Except EvalError Namespace :=
  match known.get? name with
  | some ns => .ok ns
  | none => .error (noNamespace name)

/-- Replace what is recorded of a loaded namespace. -/
def update (known : Namespaces) (ns : Namespace) : Namespaces :=
  { known with
    loaded := known.loaded.map fun entry => if entry.1 = ns.name then (entry.1, ns) else entry }

/-- The namespace of this name, which is created under the base environment if it is not there. -/
def load (known : Namespaces) (heap : Heap) (name : Symbol) :
    Namespace × Namespaces × Heap :=
  match known.get? name with
  | some ns => (ns, known, heap)
  | none =>
    let (env, heap) := heap.allocate (some known.baseEnv)
    let ns : Namespace := ⟨name, env, [], false⟩
    (ns,
      { known with
        loaded := known.loaded ++ [(name, ns)]
        owners := known.owners ++ [(env, name)] },
      heap)

/-- The environment of a registered namespace; the global environment is never one. -/
def registered? (known : Namespaces) (name : String) : Option EnvId :=
  if name = ".GlobalEnv" then none else (known.get? ⟨name⟩).map (·.env)

def nameOf? (known : Namespaces) (env : EnvId) : Option Symbol :=
  known.owners.lookup env

def isNamespaceEnv (known : Namespaces) (env : EnvId) : Bool :=
  (known.nameOf? env).isSome

def byEnv? (known : Namespaces) (env : EnvId) : Option Namespace :=
  (known.nameOf? env).bind known.get?

def nameOf (known : Namespaces) (env : EnvId) : Except EvalError Symbol :=
  match known.nameOf? env with
  | some name => .ok name
  | none => .error (.notFound "not a namespace")

def names (known : Namespaces) : List Symbol :=
  Symbol.sortByName (known.loaded.map (·.1))

def exports (known : Namespaces) (name : Symbol) : Except EvalError (List Symbol) := do
  return (← known.require name).exports

/-- The imports of a loaded namespace, which are not supported. -/
def imports (known : Namespaces) (name : Symbol) : Except EvalError (List Symbol) := do
  let _ ← known.require name
  throw (.unsupported "getNamespaceImports")

def environments (known : Namespaces) : List EnvId :=
  known.loaded.map (·.2.env)

end Namespaces

end CallByNeed
