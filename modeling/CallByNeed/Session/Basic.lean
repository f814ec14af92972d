import CallByNeed.Heap.Collect
import CallByNeed.Heap.Scope
import CallByNeed.Kernel.Table
import CallByNeed.Loop.Table
import CallByNeed.Namespace
import CallByNeed.Options

/-!
# Sessions

A session is the whole state of one interpreter: the heap with its base and
global environments, the promises, the namespaces, the active invocations, the
kernels, the loop instances and the values a host wants preserved.  Evaluation
is an action on a session (`SessionM`) that gives a value or is interrupted.

This module holds the small actions that everything else is made of: failing,
creating shared values, and reading and writing frames and promises.
-/

namespace CallByNeed

structure Invocation where
  /-- The frame made for the invocation. -/
  env : EnvId
  /-- The environment in which the call was evaluated. -/
  callerEnv : EnvId
  closure : Closure
  call : Call
  /-- The arguments as promises, before they were matched with the formals. -/
  args : ArgList

structure Session where
  heap : Heap
  promises : PromiseStore
  baseEnv : EnvId
  globalEnv : EnvId
  namespaces : Namespaces
  /-- The active invocations, the innermost first. -/
  stack : List Invocation
  kernels : KernelTable
  loops : LoopTable
  stats : LoopStats
  options : Options
  /-- What a host holds on to, the latest first. -/
  preserved : List Value
  /-- The identities given out so far. -/
  identities : Nat

namespace Session

/-- A frame without parent that binds every builtin. -/
def baseFrame : Frame :=
  { bindings := Builtin.base.zipIdx.map fun (b, i) => (⟨b.name⟩, ⟨.builtin ⟨i⟩ b, false⟩)
    parent := none }

/-- A new session: the builtins in the base environment, and an empty global one inside it. -/
def initial (options : Options) (kernels : KernelTable) : Session :=
  let (baseEnv, heap) := Heap.empty.insert baseFrame
  let (globalEnv, heap) := heap.allocate (some baseEnv)
  { heap, promises := .empty, baseEnv, globalEnv, namespaces := .initial baseEnv, stack := []
    kernels, loops := .empty, stats := {}, options, preserved := []
    identities := Builtin.base.length }

def depth (s : Session) : Nat := s.stack.length

/-- The innermost active invocation whose frame is `env`. -/
def invocationOf? (s : Session) (env : EnvId) : Option Invocation :=
  s.stack.find? (·.env == env)

end Session

/-- An action on a session that gives a value or is interrupted. -/
abbrev SessionM := ExceptT Interrupt (StateM Session)

namespace SessionM

/-! ## Outcomes -/

def fail {α : Type} (e : EvalError) : SessionM α := throw (.failure e)

def ofExcept {α : Type} : Except EvalError α → SessionM α
  | .ok a => pure a
  | .error e => fail e

/-- The outcome of an action, `none` for an error or a return.  Running out of fuel is passed on. -/
def attempt {α : Type} (act : SessionM α) : SessionM (Option α) := fun s =>
  match act s with
  | (.ok a, s) => (.ok (some a), s)
  | (.error .exhausted, s) => (.error .exhausted, s)
  | (.error _, s) => (.ok none, s)

/-- Run an action between two changes of the session; the second one is made on every outcome. -/
def bracket {α : Type} (enter leave : Session → Session) (act : SessionM α) : SessionM α := fun s =>
  let (outcome, s) := act (enter s)
  (outcome, leave s)

/-! ## The heap -/

def onHeap {α : Type} (act : HeapM α) : SessionM α := fun s =>
  let heap := s.heap
  let s := { s with heap := .empty }
  match act heap with
  | (.ok a, heap) => (.ok a, { s with heap })
  | (.error e, heap) => (.error (.failure e), { s with heap })

def askHeap {α : Type} (ask : Heap → Except EvalError α) : SessionM α := do
  ofExcept (ask (← get).heap)

def allocate (parent : Option EnvId) : SessionM EnvId :=
  modifyGet fun s =>
    let (env, heap) := s.heap.allocate parent
    (env, { s with heap })

def bindIn (env : EnvId) (name : Symbol) (value : Value) : SessionM Unit :=
  onHeap (HeapM.bind env name value)

/-! ## Shared values -/

/-- An identity that no value has yet. -/
def newIdentity : SessionM Identity :=
  modifyGet fun s => (⟨s.identities⟩, { s with identities := s.identities + 1 })

def newVector (elements : Elements) (attributes : Attributes) : SessionM Value := do
  return .vector ⟨← newIdentity, elements, attributes⟩

def newDoubles (xs : Array Float) : SessionM Value := newVector (.double xs) .empty

def newDouble (x : Float) : SessionM Value := newDoubles #[x]

def newLogical (b : Bool) : SessionM Value := newVector (.logical #[b]) .empty

def newStrings (texts : List String) : SessionM Value := newVector (.character texts.toArray) .empty

def newString (text : String) : SessionM Value := newStrings [text]

def newCall (function : Value) (args : ArgList) : SessionM Call := do
  return ⟨← newIdentity, function, args⟩

/-! ## Promises -/

def newPromise (expr : Value) (state : PromiseState) : SessionM Value :=
  modifyGet fun s =>
    let (id, promises) := s.promises.add ⟨expr, state⟩
    (.promise id, { s with promises })

/-- A new promise of the value of `expr` in `env`. -/
def newWaiting (expr : Value) (env : EnvId) : SessionM Value := newPromise expr (.waiting env false)

/-- A new promise whose value is known. -/
def newKept (expr value : Value) : SessionM Value := newPromise expr (.kept value)

def updatePromise (id : PromiseId) (f : Promise → Promise) : SessionM Unit :=
  modify fun s => { s with promises := s.promises.update id f }

end SessionM

end CallByNeed
