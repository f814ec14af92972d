import CallByNeed.Loop.Analysis

/-!
# Running loops

A loop runs generically, one iteration at a time, or fused, on all iterations at
once.  A fused run first checks that the functions of the body are still the
builtins it was analyzed with and that its variables are plain numbers; it binds
nothing before everything is computed, so giving up leaves the frames to the
generic run as they were.

`runLoop` keeps the record of the loop instance: it is analyzed when it is first
met, tried fused as long as it is fit, and generic for good after a bailout.
-/

namespace CallByNeed

/-- Vectors of length one, one for each element. -/
def Elements.singles : Elements → List Elements
  | logical xs => xs.toList.map fun x => .logical #[x]
  | double xs => xs.toList.map fun x => .double #[x]
  | character xs => xs.toList.map fun x => .character #[x]

/-- A fused run: it may give up. -/
abbrev FusedM := ExceptT Bailout SessionM

/-- The increments of all iterations, from the lane of the increment. -/
def Lane.increments (lane : Lane) (iterations : Nat) : Except Bailout (Array Float) :=
  if lane.carriesAttributes then .error .attributeFlow
  else if lane.varying then .ok lane.values
  else
    match lane.values.toList with
    | [x] => .ok (Array.replicate iterations x)
    | _ => .error .nonScalarIteration

/-- The accumulator after a loop that adds the increments to `start`. -/
def KernelTable.accumulate (kernels : KernelTable) (start : Float) (increments : Array Float) :
    Except Bailout Float :=
  match kernels.get? accumulatingComputation with
  | none => .error (.kernelUnavailable accumulatingComputation)
  | some kernel =>
    match kernel.fold accumulatingComputation start increments with
    | none => .error (.kernelRejected accumulatingComputation)
    | some total => .ok total

/-- A loop sequence as numbers, if it is a double vector without attributes. -/
def Value.plainDoubles? : Value → Option (Array Float)
  | .vector ⟨_, .double xs, attributes⟩ => if attributes.isEmpty then some xs else none
  | _ => none

/-- The numbers and attributes of a double vector without explicit class. -/
def Value.unclassedDoubles? : Value → Option DoubleVector
  | .vector ⟨_, .double xs, attributes⟩ =>
    if attributes.contains .classAttribute then none else some ⟨xs, attributes⟩
  | _ => none

namespace FusedM

def ofBailout {α : Type} (e : Except Bailout α) : FusedM α := ExceptT.mk (pure e)

/-- Give up if the name stands for a promise whose value is not known: forcing it could rebind a
    function of the body. -/
def requireForced (env : EnvId) (name : Symbol) : FusedM Unit := do
  let s ← (get : SessionM Session)
  match s.heap.find env name with
  | .ok (some (_, .promise id)) =>
    if s.promises.isWaiting id then throw (.unforcedOperand name)
  | _ => return

/-- Bind a name, or give up. -/
def bindResult (env : EnvId) (name : Symbol) (elements : Elements) (attributes : Attributes) :
    FusedM Unit := do
  let value ← (SessionM.newVector elements attributes : SessionM Value)
  match ← (SessionM.attempt (SessionM.bindIn env name value) : SessionM _) with
  | some () => return
  | none => throw (.lookup name)

end FusedM

namespace SessionM

def count (change : LoopStats → LoopStats) : SessionM Unit :=
  modify fun s => { s with stats := change s.stats }

def setLoopStatus (call : Call) (status : LoopStatus) : SessionM Unit :=
  modify fun s => { s with loops := s.loops.set call status }

end SessionM

namespace Evaluator

variable (ev : Evaluator)

/-! ## One iteration at a time -/

/-- Evaluate the body once for each element of the sequence. -/
def iterate (env : EnvId) (var : Symbol) (body : Value) : List Elements → SessionM Unit
  | [] => return
  | element :: rest => do
    SessionM.bindIn env var (← SessionM.newVector element .empty)
    let _ ← ev.evaluate body env
    iterate env var body rest

def genericRun (env : EnvId) (var : Symbol) (sequence body : Value) : SessionM Unit :=
  match sequence with
  | .vector v => ev.iterate env var body v.elements.singles
  | _ =>
    if sequence.length = 0 then pure ()
    else
      SessionM.fail
        (.invalidArgument ("invalid for() loop sequence (got " ++ sequence.typeName ++ ")"))

/-! ## All iterations at once -/

/-- Give up unless the name still stands for the builtin that it stood for. -/
def checkGuard (env : EnvId) (guarded : GuardedName) : FusedM Unit := do
  match ← (SessionM.attempt (ev.function? env guarded.name) : SessionM _) with
  | some (some (.builtin identity builtin)) =>
    if identity = guarded.identity ∧ builtin = guarded.builtin then return
    else throw (.guardFailed guarded.name)
  | _ => throw (.guardFailed guarded.name)

/-- The value of the accumulator: a single number without explicit class. -/
def readAccumulator (env : EnvId) (name : Symbol) : FusedM (Float × Attributes) := do
  match ← (SessionM.attempt (ev.lookup env name) : SessionM _) with
  | none => throw (.lookup name)
  | some value =>
    match value.unclassedDoubles? with
    | none => throw .accumulatorShape
    | some v =>
      match v.values.toList with
      | [x] => return (x, v.attributes)
      | _ => throw .accumulatorShape

/-- The value of a variable that the loop does not assign: numbers without explicit class. -/
def readInvariant (env : EnvId) (name : Symbol) : FusedM (Symbol × DoubleVector) := do
  match ← (SessionM.attempt (ev.lookup env name) : SessionM _) with
  | none => throw (.lookup name)
  | some value =>
    match value.unclassedDoubles? with
    | none => throw (.invariantType name)
    | some v => return (name, v)

def fusedRun (loop : Accumulation) (env : EnvId) (var : Symbol) (sequence : Value) :
    FusedM Unit := do
  (loop.accumulator :: loop.invariants).forM (FusedM.requireForced env)
  loop.guard.forM (ev.checkGuard env)
  let some index := sequence.plainDoubles? | throw .sequenceType
  let some last := index.back? | throw .shape
  let (start, attributes) ← ev.readAccumulator env loop.accumulator
  let given ← loop.invariants.mapM (ev.readInvariant env)
  let kernels := (← (get : SessionM Session)).kernels
  let lane ← FusedM.ofBailout (loop.increment.evaluate index given kernels)
  let increments ← FusedM.ofBailout (lane.increments index.size)
  let total ← FusedM.ofBailout (kernels.accumulate start increments)
  -- everything is computed: only now are the frames written
  FusedM.bindResult env loop.accumulator (.double #[total]) attributes
  FusedM.bindResult env var (.double #[last]) .empty

/-! ## Loop instances -/

/-- Analyze a loop instance, unless that was done before. -/
def ensureAnalyzed (call : Call) (env : EnvId) (var : Symbol) (body : Value) : SessionM Unit := do
  unless (← get).loops.contains call do
    SessionM.count fun stats => { stats with analyzed := stats.analyzed + 1 }
    let status :=
      match ← ev.analyze env var body with
      | some loop => LoopStatus.candidate loop
      | none => LoopStatus.generic
    -- the analysis may have run this very loop, whose entry is then replaced
    modify fun s => { s with loops := s.loops.insert call status }

/-- Try a fused run of a loop instance; false if it is not fit or gave up. -/
def tryFused (call : Call) (env : EnvId) (var : Symbol) (sequence : Value) : SessionM Bool := do
  match ((← get).loops.status? call).bind LoopStatus.accumulation? with
  | none => return false
  | some loop =>
    if sequence.length = 0 then return false
    else
      match ← (ev.fusedRun loop env var sequence).run with
      | .ok () =>
        SessionM.setLoopStatus call (.fused loop)
        SessionM.count fun stats => { stats with fusedRuns := stats.fusedRuns + 1 }
        return true
      | .error _ =>
        SessionM.setLoopStatus call .generic
        SessionM.count fun stats => { stats with bailouts := stats.bailouts + 1 }
        return false

/-- Run the loop of a `for` call; its value is NULL. -/
def runLoop (call : Call) (env : EnvId) (var : Symbol) (sequence body : Value) :
    SessionM Value := do
  if (← get).options.compileLoops then
    ev.ensureAnalyzed call env var body
    unless ← ev.tryFused call env var sequence do
      SessionM.count fun stats => { stats with genericRuns := stats.genericRuns + 1 }
      ev.genericRun env var sequence body
  else ev.genericRun env var sequence body
  return .null

end Evaluator

end CallByNeed
