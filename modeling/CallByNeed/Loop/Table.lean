import CallByNeed.Loop.Expr
import CallByNeed.Options

/-!
# Loop instances

Each `for` call is a loop instance of its own, known by the identity of the
call.  An instance that was analyzed is a candidate for a run on whole vectors,
or it is generic and runs one iteration at a time.  A candidate that ran on
whole vectors is fused; a bailout makes an instance generic.  The table holds
the instances that were analyzed, and the counters say how often what happened.
-/

namespace CallByNeed

/-- The name of a function in a loop body together with the builtin that it stood for. -/
structure GuardedName where
  name : Symbol
  identity : Identity
  builtin : Builtin

/-- A loop that adds `increment` to `accumulator` in each iteration. -/
structure Accumulation where
  accumulator : Symbol
  increment : LoopExpr
  /-- The variables that the increment reads and the loop does not assign. -/
  invariants : List Symbol
  /-- The functions that the increment was read with. -/
  guard : List GuardedName

inductive LoopStatus where
  | candidate (loop : Accumulation)
  | fused (loop : Accumulation)
  | generic

/-- How far a loop instance has got. -/
inductive LoopPhase where
  | candidate
  | fused
  | generic
  deriving DecidableEq, Repr

namespace LoopStatus

def phase : LoopStatus → LoopPhase
  | candidate _ => .candidate
  | fused _ => .fused
  | generic => .generic

/-- The loop to be run on whole vectors. -/
def accumulation? : LoopStatus → Option Accumulation
  | candidate loop => some loop
  | fused loop => some loop
  | generic => none

end LoopStatus

structure LoopInstance where
  call : Call
  status : LoopStatus

structure LoopTable where
  instances : List LoopInstance

namespace LoopTable

def empty : LoopTable := ⟨[]⟩

/-- What is known about the instance of a call. -/
def status? (table : LoopTable) (call : Call) : Option LoopStatus :=
  (table.instances.find? (·.call.identity == call.identity)).map (·.status)

def contains (table : LoopTable) (call : Call) : Bool := (table.status? call).isSome

/-- The phase of the instance of a call. -/
def phase? (table : LoopTable) (call : Call) : Option LoopPhase :=
  (table.status? call).map LoopStatus.phase

def calls (table : LoopTable) : List Call := table.instances.map (·.call)

def size (table : LoopTable) : Nat := table.instances.length

/-- Enter an instance, or enter it anew. -/
def insert (table : LoopTable) (call : Call) (status : LoopStatus) : LoopTable :=
  ⟨⟨call, status⟩ :: table.instances.filter (·.call.identity != call.identity)⟩

/-- Change what is known about an instance, if it is there. -/
def set (table : LoopTable) (call : Call) (status : LoopStatus) : LoopTable :=
  ⟨table.instances.map fun known =>
    if known.call.identity == call.identity then { known with status } else known⟩

theorem status?_insert_self (table : LoopTable) (call : Call) (status : LoopStatus) :
    (table.insert call status).status? call = some status := by
  simp [insert, status?]

theorem status?_insert_of_ne {call other : Call} (table : LoopTable) (status : LoopStatus)
    (h : other.identity ≠ call.identity) :
    (table.insert call status).status? other = table.status? other := by
  have h' : (call.identity == other.identity) = false := by simpa using Ne.symm h
  simp only [insert, status?, List.find?_cons, h']
  congr 1
  induction table.instances with
  | nil => rfl
  | cons known rest ih =>
    by_cases hknown : known.call.identity = call.identity
    · simp [hknown, h', ih]
    · by_cases hother : known.call.identity = other.identity
      · simp [hother, h]
      · simp [hknown, hother, ih]

@[simp] theorem size_set (table : LoopTable) (call : Call) (status : LoopStatus) :
    (table.set call status).size = table.size := by
  simp [set, size]

end LoopTable

structure LoopStats where
  analyzed : Nat := 0
  fusedRuns : Nat := 0
  genericRuns : Nat := 0
  bailouts : Nat := 0
  deriving DecidableEq, Repr, Inhabited

/-- The counters that a list of settings describes; each must be there. -/
def LoopStats.ofSettings? (settings : List (String × Setting)) : Option LoopStats := do
  let read (name : String) : Option Nat := do (← settings.lookup name).natural?
  return {
    analyzed := ← read "loops_analyzed"
    fusedRuns := ← read "fused_runs"
    genericRuns := ← read "generic_runs"
    bailouts := ← read "bailouts" }

end CallByNeed
