import CallByNeed.Loop.Run
import CallByNeed.Proofs.Positions.Forms

/-!
# Loops by position

Analyzing a loop takes the operands of an operation by position once it has
counted them, and numbers from vectors of length one.  A run on whole vectors
recycles lanes; a run of single iterations goes through the sequence by
position.  Each routine is equal to the one that it spells out, so a loop handed
to `runLoop` reads within the bounds (`runLoop_eq`).
-/

namespace CallByNeed.Positional

/-! ## Operations and their operands -/

/-- The expression that an operation makes of its operands: `none` inside if it needs another
    number of them. -/
def loopExpr? (op : LoopOp) (operands : List LoopExpr) : Option (Option LoopExpr) :=
  match op, operands.length with
  | .unary op, 1 => some (some (.map (.unary op) operands))
  | .binary op, 2 => some (some (.map (.binary op) operands))
  | .binary .sub, 1 => some (some (.map (.unary .neg) operands))
  | .binary .add, 1 => some operands.getLast?
  | .computation name, 1 => do
    let operand ← operands[0]?
    return if operand.readsIndex then none else some (.computation name operand)
  | _, _ => some none

theorem loopExpr?_eq (op : LoopOp) (operands : List LoopExpr) :
    loopExpr? op operands = some (op.expr? operands) := by
  -- no operation takes more than two operands
  match operands with
  | [] | [_] | [_, _] | _ :: _ :: _ :: _ =>
    cases op with
    | binary op => cases op <;> rfl
    | _ => rfl

/-! ## Lanes -/

def laneOf (v : DoubleVector) : Option Lane := do
  let extents ← extents? v.attributes
  return {
    values := v.values
    varying := false
    extents
    plain := v.attributes.entries.length == if extents.isSome then 1 else 0 }

def mapLanes : ElementwiseOp → List Lane → ReadM Bailout Lane
  | .unary op, [x] => return { x with values := op.map x.values }
  | .binary op, [x, y] =>
    if (x.varying && !y.fitsVarying) || (y.varying && !x.fitsVarying) then
      throw .nonScalarIteration
    else do
      let values ← there (zipRecycled op.apply x.values y.values)
      return ⟨values, x.varying || y.varying, none, true⟩
  | _, _ => throw .shape

section

variable (sequence : Array Float) (given : List (Symbol × DoubleVector)) (kernels : KernelTable)

mutual

def evaluate : LoopExpr → ReadM Bailout Lane
  | .index => return ⟨sequence, true, none, true⟩
  | .constant x => return .constant #[x]
  | .invariant name =>
    match given.lookup name with
    | some v => there (laneOf v)
    | none => throw (.lookup name)
  | .map op operands => do
    let lanes ← evaluateAll operands
    if lanes.any Lane.carriesAttributes then throw .attributeFlow else mapLanes op lanes
  | .computation name operand => do
    ends ((← evaluate operand).compute kernels name)

def evaluateAll : List LoopExpr → ReadM Bailout (List Lane)
  | [] => return []
  | e :: rest => do
    let lane ← evaluate e
    return lane :: (← evaluateAll rest)

end

theorem laneOf_eq (v : DoubleVector) : laneOf v = some (.ofVector v) := by
  simp only [laneOf, extents?_eq]
  rfl

theorem mapLanes_eq (op : ElementwiseOp) (lanes : List Lane) :
    mapLanes op lanes = ends (Lane.map op lanes) := by
  match lanes with
  | [x, y] =>
    cases op with
    | unary op => rfl
    | binary op =>
      simp only [mapLanes, zipRecycled_eq, there_some, pure_bind, Lane.map]
      split <;> rfl
  | [] | [_] | _ :: _ :: _ :: _ => cases op <;> rfl

mutual

theorem evaluate_eq (e : LoopExpr) :
    evaluate sequence given kernels e = ends (e.evaluate sequence given kernels) := by
  match e with
  | .index | .constant _ => rfl
  | .invariant name =>
    simp only [evaluate, laneOf_eq, LoopExpr.evaluate]
    cases given.lookup name <;> rfl
  | .map op operands =>
    simp only [evaluate, evaluateAll_eq operands, mapLanes_eq, LoopExpr.evaluate, ends_bind]
    refine bind_congr fun lanes => ?_
    split <;> rfl
  | .computation name operand =>
    simp only [evaluate, evaluate_eq operand, LoopExpr.evaluate, ends_bind]

theorem evaluateAll_eq (operands : List LoopExpr) :
    evaluateAll sequence given kernels operands =
      ends (LoopExpr.evaluateAll sequence given kernels operands) := by
  match operands with
  | [] => rfl
  | e :: rest =>
    simp only [evaluateAll, evaluate_eq e, evaluateAll_eq rest, LoopExpr.evaluateAll, ends_bind]
    rfl

end

end

/-! ## Analysis -/

variable (trap : Trap) (ev : Evaluator)

mutual

def loopExprOf (env : EnvId) (var accumulator : Symbol) : Value → AnalysisM LoopExpr
  | .symbol name =>
    if name = var then return .index
    else if name = accumulator || name.isMissing || name.isEllipsis then failure
    else return .invariant name
  | .vector ⟨_, .double xs, attributes⟩ =>
    if xs.size = 1 then
      if attributes.isEmpty then do
        return .constant (← (reach trap xs[0]? : SessionM Float))
      else failure
    else failure
  | .call ⟨_, .symbol name, args⟩ =>
    if args.all Arg.isPlain then do
      let op ← ev.loopOp env name
      let operands ← loopExprsOf env var accumulator args
      let found ← (reach trap (loopExpr? op operands) : SessionM (Option LoopExpr))
      StateT.lift (OptionT.mk (pure found))
    else failure
  | _ => failure

def loopExprsOf (env : EnvId) (var accumulator : Symbol) :
    List (Arg Value) → AnalysisM (List LoopExpr)
  | [] => return []
  | ⟨_, value⟩ :: rest => do
    let operand ← loopExprOf env var accumulator value
    return operand :: (← loopExprsOf env var accumulator rest)

end

def accumulationBody (env : EnvId) (var : Symbol) (body : Value) :
    AnalysisM (Symbol × LoopExpr) := do
  let statement ← ev.statementOf env body
  let (accumulator, increment) ← ev.accumulationOf env var statement
  return (accumulator, ← loopExprOf trap ev env var accumulator increment)

def analyze (env : EnvId) (var : Symbol) (body : Value) : SessionM (Option Accumulation) := do
  match ← (accumulationBody trap ev env var body).run [] with
  | none => return none
  | some ((accumulator, increment), guard) =>
    let kernels := (← get).kernels
    if (accumulatingComputation :: increment.computations).all kernels.contains then
      return some ⟨accumulator, increment, increment.invariants, guard⟩
    else return none

def ensureAnalyzed (call : Call) (env : EnvId) (var : Symbol) (body : Value) : SessionM Unit := do
  unless (← get).loops.contains call do
    SessionM.count fun stats => { stats with analyzed := stats.analyzed + 1 }
    let status :=
      match ← analyze trap ev env var body with
      | some loop => LoopStatus.candidate loop
      | none => LoopStatus.generic
    modify fun s => { s with loops := s.loops.insert call status }

mutual

theorem loopExprOf_eq (env : EnvId) (var accumulator : Symbol) (expr : Value) :
    loopExprOf trap ev env var accumulator expr = ev.loopExprOf env var accumulator expr := by
  match expr with
  | .symbol name => rfl
  | .vector ⟨_, .double ⟨xs⟩, attributes⟩ =>
    match xs with
    | [] | [_] | _ :: _ :: _ => rfl
  | .call ⟨_, function, args⟩ =>
    cases function with
    | symbol name =>
      simp only [loopExprOf, loopExprsOf_eq env var accumulator args, loopExpr?_eq, reach_some]
      rfl
    | _ => rfl
  | .vector ⟨_, .logical _, _⟩ | .vector ⟨_, .character _, _⟩ => rfl
  | .null | .list _ | .dots _ | .closure _ | .builtin _ _ | .promise _ | .environment _ => rfl

theorem loopExprsOf_eq (env : EnvId) (var accumulator : Symbol) (args : List (Arg Value)) :
    loopExprsOf trap ev env var accumulator args = ev.loopExprsOf env var accumulator args := by
  match args with
  | [] => rfl
  | ⟨_, value⟩ :: rest =>
    simp only [loopExprsOf, loopExprOf_eq env var accumulator value,
      loopExprsOf_eq env var accumulator rest]
    rfl

end

theorem ensureAnalyzed_eq (call : Call) (env : EnvId) (var : Symbol) (body : Value) :
    ensureAnalyzed trap ev call env var body = ev.ensureAnalyzed call env var body := by
  simp only [ensureAnalyzed, analyze, accumulationBody, loopExprOf_eq]
  rfl

/-! ## Runs -/

def performFused {α : Type} (act : ReadM Bailout α) : FusedM α :=
  ExceptT.mk (reach trap act.run)

theorem performFused_ends {α : Type} (r : Except Bailout α) :
    performFused trap (ends r) = FusedM.ofBailout r := rfl

def readAccumulator (env : EnvId) (name : Symbol) : FusedM (Float × Attributes) := do
  match ← (SessionM.attempt (ev.lookup env name) : SessionM _) with
  | none => throw (.lookup name)
  | some value =>
    match value.unclassedDoubles? with
    | none => throw .accumulatorShape
    | some v =>
      if v.values.size = 1 then
        return (← (reach trap v.values[0]? : SessionM Float), v.attributes)
      else throw .accumulatorShape

def fusedRun (loop : Accumulation) (env : EnvId) (var : Symbol) (sequence : Value) :
    FusedM Unit := do
  (loop.accumulator :: loop.invariants).forM (FusedM.requireForced env)
  loop.guard.forM (ev.checkGuard env)
  let some index := sequence.plainDoubles? | throw .sequenceType
  let some last := index.back? | throw .shape
  let (start, attributes) ← readAccumulator trap ev env loop.accumulator
  let given ← loop.invariants.mapM (ev.readInvariant env)
  let kernels := (← (get : SessionM Session)).kernels
  let lane ← performFused trap (evaluate index given kernels loop.increment)
  let increments ← FusedM.ofBailout (lane.increments index.size)
  let total ← FusedM.ofBailout (kernels.accumulate start increments)
  FusedM.bindResult env loop.accumulator (.double #[total]) attributes
  FusedM.bindResult env var (.double #[last]) .empty

def tryFused (call : Call) (env : EnvId) (var : Symbol) (sequence : Value) : SessionM Bool := do
  match ((← get).loops.status? call).bind LoopStatus.accumulation? with
  | none => return false
  | some loop =>
    if sequence.length = 0 then return false
    else
      match ← (fusedRun trap ev loop env var sequence).run with
      | .ok () =>
        SessionM.setLoopStatus call (.fused loop)
        SessionM.count fun stats => { stats with fusedRuns := stats.fusedRuns + 1 }
        return true
      | .error _ =>
        SessionM.setLoopStatus call .generic
        SessionM.count fun stats => { stats with bailouts := stats.bailouts + 1 }
        return false

/-- Evaluate the body once for each of the positions of the sequence. -/
def iterate (env : EnvId) (var : Symbol) (body : Value) (elements : Elements) :
    List Nat → SessionM Unit
  | [] => return
  | i :: rest => do
    let element ← reach trap (single elements i)
    SessionM.bindIn env var (← SessionM.newVector element .empty)
    let _ ← ev.evaluate body env
    iterate env var body elements rest

def genericRun (env : EnvId) (var : Symbol) (sequence body : Value) : SessionM Unit :=
  match sequence with
  | .vector v => iterate trap ev env var body v.elements (List.range v.elements.size)
  | _ => ev.genericRun env var sequence body

def runLoop (call : Call) (env : EnvId) (var : Symbol) (sequence body : Value) :
    SessionM Value := do
  if (← get).options.compileLoops then
    ensureAnalyzed trap ev call env var body
    unless ← tryFused trap ev call env var sequence do
      SessionM.count fun stats => { stats with genericRuns := stats.genericRuns + 1 }
      genericRun trap ev env var sequence body
  else genericRun trap ev env var sequence body
  return .null

theorem readAccumulator_eq (env : EnvId) (name : Symbol) :
    readAccumulator trap ev env name = ev.readAccumulator env name := by
  refine bind_congr fun found => ?_
  cases found with
  | none => rfl
  | some value =>
    dsimp only
    cases value.unclassedDoubles? with
    | none => rfl
    | some v =>
      obtain ⟨⟨xs⟩, attributes⟩ := v
      -- the first number is read only where it is the only one
      match xs with
      | [] | [_] | _ :: _ :: _ => rfl

theorem fusedRun_eq (loop : Accumulation) (env : EnvId) (var : Symbol) (sequence : Value) :
    fusedRun trap ev loop env var sequence = ev.fusedRun loop env var sequence := by
  simp only [fusedRun, readAccumulator_eq, evaluate_eq, performFused_ends]
  rfl

theorem tryFused_eq (call : Call) (env : EnvId) (var : Symbol) (sequence : Value) :
    tryFused trap ev call env var sequence = ev.tryFused call env var sequence := by
  simp only [tryFused, fusedRun_eq]
  rfl

/-- The element at each position is the one that a run of single iterations takes there. -/
theorem map_single (elements : Elements) :
    (List.range elements.size).map (single elements) = elements.singles.map some := by
  cases elements <;>
    refine List.ext_getElem (by simp [Elements.singles, Elements.size]) fun i hi hi' => ?_ <;>
    simp only [Elements.size, List.length_map, List.length_range] at hi <;>
    simp [single, Elements.singles, hi]

theorem iterate_eq (env : EnvId) (var : Symbol) (body : Value) {elements : Elements}
    {positions : List Nat} {singles : List Elements}
    (h : positions.map (single elements) = singles.map some) :
    iterate trap ev env var body elements positions = ev.iterate env var body singles := by
  induction positions generalizing singles with
  | nil =>
    obtain rfl := List.map_eq_nil_iff.1 h.symm
    rfl
  | cons i rest ih =>
    cases singles with
    | nil => cases h
    | cons element later =>
      obtain ⟨helement, hlater⟩ := List.cons.inj h
      simp only [iterate, helement, reach_some, pure_bind, ih hlater, Evaluator.iterate]

theorem genericRun_eq (env : EnvId) (var : Symbol) (sequence body : Value) :
    genericRun trap ev env var sequence body = ev.genericRun env var sequence body := by
  cases sequence with
  | vector v => exact iterate_eq trap ev env var body (map_single v.elements)
  | _ => rfl

theorem runLoop_eq (call : Call) (env : EnvId) (var : Symbol) (sequence body : Value) :
    runLoop trap ev call env var sequence body = ev.runLoop call env var sequence body := by
  simp only [runLoop, ensureAnalyzed_eq, tryFused_eq, genericRun_eq]
  rfl

end CallByNeed.Positional
