import CallByNeed.Heap.Basic

/-!
# Scopes

The scope of an environment is the environment itself followed by the ones
around it, each inside the next.  It ends at a frame without parent, or at a
reference to a frame that has been freed.  Everything that looks outward from an
environment (`find`, `lookup`, `chain`, `assignNonLocal`) is a look at its
scope.
-/

namespace CallByNeed

/-- The frames seen from an environment, innermost first.  `dangling` is the freed reference at
    which the view ends, if it ends at one. -/
structure Scope where
  frames : List (EnvId × Frame)
  dangling : Option EnvId

/-- The innermost frame of a scope that binds `name`, with what it binds it to; an error if the
    scope breaks off before there is one. -/
def Scope.owner? (s : Scope) (name : Symbol) : Except EvalError (Option (EnvId × Binding)) :=
  match s.frames.findSome? fun (id, f) => (f.get? name).map (id, ·), s.dangling with
  | some found, _ => .ok (some found)
  | none, some id => .error (.staleEnvironment id)
  | none, none => .ok none

namespace Heap

/-- At most `fuel` frames of the scope that begins at `start`. -/
def scopeWithin (h : Heap) : (fuel : Nat) → (start : Option EnvId) → Scope
  | _, none => ⟨[], none⟩
  | 0, some _ => ⟨[], none⟩
  | fuel + 1, some id =>
    match h.frame? id with
    | none => ⟨[], some id⟩
    | some f =>
      let outer := h.scopeWithin fuel f.parent
      ⟨(id, f) :: outer.frames, outer.dangling⟩

/-- The frames seen from `start`.  Each is seen once, so there are no more of them than slots; one
    more step notices a freed reference at the end. -/
def scopeFrom (h : Heap) (start : Option EnvId) : Scope := h.scopeWithin (h.slots.size + 1) start

def scope (h : Heap) (env : EnvId) : Scope := h.scopeFrom (some env)

/-- The innermost environment around `env` (or `env` itself) that binds `name`, and the value. -/
def find (h : Heap) (env : EnvId) (name : Symbol) : Except EvalError (Option (EnvId × Value)) := do
  return (← (h.scope env).owner? name).map fun (id, binding) => (id, binding.value)

/-- The value that `name` has as seen from an environment. -/
def lookup (h : Heap) (env : EnvId) (name : Symbol) : Except EvalError Value := do
  match ← h.find env name with
  | some (_, value) => return value
  | none => .error (.unboundSymbol name)

/-- An environment and those around it, innermost first. -/
def chain (h : Heap) (env : EnvId) : Except EvalError (List EnvId) :=
  let s := h.scope env
  match s.dangling with
  | some id => .error (.staleEnvironment id)
  | none => .ok (s.frames.map (·.1))

/-- The innermost environment strictly around `env` that binds `name`, or else `global`. -/
def nonLocalTarget (h : Heap) (env : EnvId) (name : Symbol) (global : EnvId) :
    Except EvalError EnvId := do
  match ← (h.scopeFrom (← h.parent env)).owner? name with
  | some (id, _) => return id
  | none => return global

end Heap

/-- Assign to the innermost environment strictly around `env` that binds `name`, or bind the name
    in `global` if there is none.  Answers the environment that was written. -/
def HeapM.assignNonLocal (env : EnvId) (name : Symbol) (value : Value) (global : EnvId) :
    HeapM EnvId := do
  let target ← ExceptT.mk (pure ((← get).nonLocalTarget env name global))
  HeapM.bind target name value
  return target

end CallByNeed
