import CallByNeed.Proofs.Contract.LoopRecord

/-!
# Restrained evaluators

A program binds names by assigning, by looping, by invoking functions with
formals, and by registering methods, whose names are bound in a methods table.
A restraint says which of these bindings a program keeps from.  The restrained
evaluator gives up, as if out of fuel, before it makes another one; so as long as
it does not give up, the plain evaluator does the same (`Restraint.agreeAll`).

The rules below are those of the plain evaluator, but for the bindings.
-/

namespace CallByNeed

/-- What a program may bind. -/
structure Restraint where
  /-- Whether it may bind the name in this environment, by assigning or by looping. -/
  binds : Heap → EnvId → Symbol → Bool
  /-- Whether it may invoke a function with these formals. -/
  declares : ArgList → Bool
  /-- Whether it may register a method under this name. -/
  registers : Symbol → Bool

namespace Restraint

variable (R : Restraint) (ev : Evaluator)

/-! ## Assignments -/

def bindIn (env : EnvId) (name : Symbol) (value : Value) : SessionM Unit :=
  SessionM.onlyIf (fun s => R.binds s.heap env name) (SessionM.bindIn env name value)

def assign (call : Call) (env : EnvId) : SessionM Value := do
  let (target, expr) ← SessionM.twoArgs call .assign
  let name ← SessionM.assignmentTarget target
  let value ← ev.evaluate expr env
  R.bindIn env name value
  return value

def assignOuter (call : Call) (env : EnvId) : SessionM Value := do
  let (target, expr) ← SessionM.twoArgs call .assignOuter
  let name ← SessionM.assignmentTarget target
  let value ← ev.evaluate expr env
  let global := (← get).globalEnv
  let outer ← SessionM.askHeap fun h => h.nonLocalTarget env name global
  R.bindIn outer name value
  return value

def runSpecial (form : SpecialForm) (call : Call) (env : EnvId) : SessionM Value :=
  match form with
  | .assign => R.assign ev call env
  | .assignEquals => R.assign ev call env
  | .assignOuter => R.assignOuter ev call env
  | form => ev.runSpecial form call env

/-! ## Invocations -/

def invoke (closure : Closure) (callerEnv : EnvId) (call : Call) (args : ArgList)
    (extra : List (Symbol × Value)) : SessionM Value :=
  SessionM.onlyIf (fun _ => R.declares closure.formals)
    (ev.invoke closure callerEnv call args extra)

/-! ## Methods -/

def registerMethod (generic className : String) (method : Value) (definitionEnv : EnvId) :
    SessionM Unit :=
  SessionM.onlyIf (fun _ => R.registers (methodName generic className))
    (SessionM.registerMethod generic className method definitionEnv)

def registerMethodFrom (generic className : String) (method : Value) (env : EnvId) :
    SessionM Unit := do
  match ← ev.genericEnv generic env with
  | none => SessionM.fail (.notFound ("Cannot find generic function '" ++ generic ++ "'"))
  | some definitionEnv =>
    let method ← ev.methodOf method env
    R.registerMethod generic className method definitionEnv

def registerMethodBuiltin (args : ArgList) (env : EnvId) : SessionM Value := do
  let builtin := NamespaceQuery.registerMethod.name
  let values ← SessionM.ofExcept (argsByName args ["genname", "class", "method", "envir"])
  let generic ← SessionM.ofExcept (requireArg builtin values 0)
  let generic ← SessionM.ofExcept (nameArg generic "genname")
  let className ← SessionM.ofExcept (requireArg builtin values 1)
  let className ← SessionM.ofExcept (nameArg className "class")
  let method ← SessionM.ofExcept (requireArg builtin values 2)
  let env ← SessionM.ofExcept (environmentOr env (values[3]?.getD .missingArg))
  R.registerMethodFrom ev generic className method env
  return .null

def runEager (builtin : EagerBuiltin) (args : ArgList) (env : EnvId) : SessionM Value :=
  match builtin with
  | .namespaces .registerMethod => R.registerMethodBuiltin ev args env
  | builtin => ev.runEager builtin args env

/-! ## Expressions -/

def evaluateCall (call : Call) (env : EnvId) : SessionM Value := do
  match ← ev.functionOf call env with
  | .closure closure =>
    let args ← SessionM.suspendArgs call.args env
    R.invoke ev closure env call args []
  | .builtin _ (.special form) => R.runSpecial ev form call env
  | .builtin _ (.eager builtin) =>
    let args ← ev.argValues call.args env
    R.runEager ev builtin args env
  | other => SessionM.fail (.notAFunction other.typeName)

def evaluateExpr (expr : Value) (env : EnvId) : SessionM Value :=
  match expr with
  | .call call => R.evaluateCall ev call env
  | expr => ev.evaluateExpr expr env

def applyValue (function : Value) (call : Call) (args : ArgList) (env : EnvId)
    (extra : List (Symbol × Value)) : SessionM Value :=
  match function with
  | .closure closure => R.invoke ev closure env call args extra
  | .builtin _ (.special form) => R.runSpecial ev form call env
  | .builtin _ (.eager builtin) => do
    let args ← args.mapM ev.forceArg
    R.runEager ev builtin args env
  | other => SessionM.fail (.notAFunction other.typeName)

/-! ## Loops -/

def iterate (env : EnvId) (var : Symbol) (body : Value) : List Elements → SessionM Unit
  | [] => return
  | element :: rest => do
    R.bindIn env var (← SessionM.newVector element .empty)
    let _ ← ev.evaluate body env
    iterate env var body rest

def genericRun (env : EnvId) (var : Symbol) (sequence body : Value) : SessionM Unit :=
  match sequence with
  | .vector v => R.iterate ev env var body v.elements.singles
  | _ => ev.genericRun env var sequence body

def bindResult (env : EnvId) (name : Symbol) (elements : Elements) (attributes : Attributes) :
    FusedM Unit := do
  let value ← (SessionM.newVector elements attributes : SessionM Value)
  match ← (SessionM.attempt (R.bindIn env name value) : SessionM _) with
  | some () => return
  | none => throw (.lookup name)

def fusedRun (loop : Accumulation) (env : EnvId) (var : Symbol) (sequence : Value) :
    FusedM Unit := do
  (loop.accumulator :: loop.invariants).forM (FusedM.requireForced env)
  loop.guard.forM (ev.checkGuard env)
  let some index := sequence.plainDoubles? | throw .sequenceType
  let some last := index.back? | throw .shape
  let (start, attributes) ← ev.readAccumulator env loop.accumulator
  let given ← loop.invariants.mapM (ev.readInvariant env)
  let kernels := (← (get : SessionM Session)).kernels
  let lane ← FusedM.ofBailout (loop.increment.evaluate index given kernels)
  let increments ← FusedM.ofBailout (lane.increments index.size)
  let total ← FusedM.ofBailout (kernels.accumulate start increments)
  R.bindResult env loop.accumulator (.double #[total]) attributes
  R.bindResult env var (.double #[last]) .empty

def tryFused (call : Call) (env : EnvId) (var : Symbol) (sequence : Value) : SessionM Bool := do
  match ((← get).loops.status? call).bind LoopStatus.accumulation? with
  | none => return false
  | some loop =>
    if sequence.length = 0 then return false
    else
      match ← (R.fusedRun ev loop env var sequence).run with
      | .ok () =>
        SessionM.setLoopStatus call (.fused loop)
        SessionM.count fun stats => { stats with fusedRuns := stats.fusedRuns + 1 }
        return true
      | .error _ =>
        SessionM.setLoopStatus call .generic
        SessionM.count fun stats => { stats with bailouts := stats.bailouts + 1 }
        return false

def runLoop (call : Call) (env : EnvId) (var : Symbol) (sequence body : Value) :
    SessionM Value := do
  if (← get).options.compileLoops then
    ev.ensureAnalyzed call env var body
    unless ← R.tryFused ev call env var sequence do
      SessionM.count fun stats => { stats with genericRuns := stats.genericRuns + 1 }
      R.genericRun ev env var sequence body
  else R.genericRun ev env var sequence body
  return .null

def step : Task → SessionM Value
  | .evaluate expr env => R.evaluateExpr ev expr env
  | .apply function call args env extra => R.applyValue ev function call args env extra
  | .loop call env var sequence body => R.runLoop ev call env var sequence body

/-- The evaluator of some fuel, but it gives up before a binding that a program keeps from. -/
def evaluator : (fuel : Nat) → Evaluator
  | 0, _ => throw .exhausted
  | fuel + 1, task => R.step (evaluator fuel) task

/-! ## Agreement with the plain evaluator -/

section

open Contract

variable {R} {ev₁ ev₂ : Evaluator} {α : Type}

theorem agree_onlyIf {p : Session → Bool} {x y : SessionM α} (h : untilExhausted.Agree x y) :
    untilExhausted.Agree x (SessionM.onlyIf p y) := by
  intro s _
  cases hp : p s with
  | true =>
    have hrun : SessionM.onlyIf p y s = y s := by simp only [SessionM.onlyIf, hp, if_true]
    refine ⟨?_, trivial, fun _ _ => trivial⟩
    rw [hrun]
    exact (h s trivial).same
  | false =>
    have hrun : SessionM.onlyIf p y s = (.error .exhausted, s) := by
      simp only [SessionM.onlyIf, hp, Bool.false_eq_true, if_false]
    exact .of_exhausted trivial trivial hrun trivial

theorem agree_bindIn (env : EnvId) (name : Symbol) (value : Value) :
    untilExhausted.Agree (SessionM.bindIn env name value) (R.bindIn env name value) :=
  agree_onlyIf (keeps_bindIn _ _ _)

section

variable (h : untilExhausted.AgreeAll ev₁ ev₂)
include h

theorem agree_assign (call : Call) (env : EnvId) :
    untilExhausted.Agree (ev₁.assign call env) (R.assign ev₂ call env) := by
  refine (keeps_twoArgs call .assign).bind fun (target, expr) => ?_
  refine (keeps_assignmentTarget target).bind fun name => ?_
  refine (agree_evaluate h expr env).bind fun value => ?_
  exact (agree_bindIn _ _ _).bind fun _ => keeps_pure _

theorem agree_assignOuter (call : Call) (env : EnvId) :
    untilExhausted.Agree (ev₁.assignOuter call env) (R.assignOuter ev₂ call env) := by
  refine (keeps_twoArgs call .assignOuter).bind fun (target, expr) => ?_
  refine (keeps_assignmentTarget target).bind fun name => ?_
  refine (agree_evaluate h expr env).bind fun value => keeps_get.bind fun s => ?_
  dsimp only
  simp only [SessionM.onHeap_assignNonLocal, bind_assoc, pure_bind]
  refine (keeps_askHeap fun h => h.overflowless_nonLocalTarget env name _).bind fun outer => ?_
  exact (agree_bindIn _ _ _).bind fun _ => keeps_pure _

theorem agree_runSpecial (form : SpecialForm) (call : Call) (env : EnvId) :
    untilExhausted.Agree (ev₁.runSpecial form call env) (R.runSpecial ev₂ form call env) := by
  cases form with
  | assign => exact agree_assign h _ _
  | assignEquals => exact agree_assign h _ _
  | assignOuter => exact agree_assignOuter h _ _
  | _ => exact Contract.agree_runSpecial h _ _ _

theorem agree_invoke (closure : Closure) (callerEnv : EnvId) (call : Call) (args : ArgList)
    (extra : List (Symbol × Value)) :
    untilExhausted.Agree (ev₁.invoke closure callerEnv call args extra)
      (R.invoke ev₂ closure callerEnv call args extra) :=
  agree_onlyIf (Contract.agree_invoke h _ _ _ _ _)

theorem agree_registerMethodFrom (generic className : String) (method : Value) (env : EnvId) :
    untilExhausted.Agree (ev₁.registerMethodFrom generic className method env)
      (R.registerMethodFrom ev₂ generic className method env) := by
  refine (agree_genericEnv h generic env).bind fun definitionEnv => ?_
  cases definitionEnv with
  | none => exact keeps_fail rfl
  | some definitionEnv =>
    exact (agree_methodOf h method env).bind fun _ => agree_onlyIf (keeps_registerMethod _ _ _ _)

theorem agree_registerMethodBuiltin (args : ArgList) (env : EnvId) :
    untilExhausted.Agree (ev₁.registerMethodBuiltin args env)
      (R.registerMethodBuiltin ev₂ args env) :=
  (keeps_ofExcept (plain_argsByName _ _)).bind fun values =>
    agree_registration (agree_registerMethodFrom h) values _ env

theorem agree_runEager (builtin : EagerBuiltin) (args : ArgList) (env : EnvId) :
    untilExhausted.Agree (ev₁.runEager builtin args env) (R.runEager ev₂ builtin args env) := by
  unfold Restraint.runEager
  split
  · exact agree_registerMethodBuiltin h _ _
  · exact Contract.agree_runEager h _ _ _

theorem agree_evaluateCall (call : Call) (env : EnvId) :
    untilExhausted.Agree (ev₁.evaluateCall call env) (R.evaluateCall ev₂ call env) := by
  refine (agree_functionOf h call env).bind fun function => ?_
  cases function with
  | closure closure => exact (keeps_suspendArgs _ _).bind fun _ => agree_invoke h _ _ _ _ _
  | builtin _ b =>
    cases b with
    | special form => exact agree_runSpecial h _ _ _
    | eager builtin => exact (agree_argValues h _ _).bind fun _ => agree_runEager h _ _ _
  | _ => exact keeps_fail rfl

theorem agree_evaluateExpr (expr : Value) (env : EnvId) :
    untilExhausted.Agree (ev₁.evaluateExpr expr env) (R.evaluateExpr ev₂ expr env) := by
  unfold Restraint.evaluateExpr
  split
  · exact agree_evaluateCall h _ _
  · exact Contract.agree_evaluateExpr h _ _

theorem agree_applyValue (function : Value) (call : Call) (args : ArgList) (env : EnvId)
    (extra : List (Symbol × Value)) :
    untilExhausted.Agree (ev₁.applyValue function call args env extra)
      (R.applyValue ev₂ function call args env extra) := by
  cases function with
  | closure closure => exact agree_invoke h _ _ _ _ _
  | builtin _ b =>
    cases b with
    | special form => exact agree_runSpecial h _ _ _
    | eager builtin => exact Agree.bind (.mapM (agree_forceArg h)) fun _ => agree_runEager h _ _ _
  | _ => exact keeps_fail rfl

theorem agree_iterate (env : EnvId) (var : Symbol) (body : Value) (elements : List Elements) :
    untilExhausted.Agree (ev₁.iterate env var body elements)
      (R.iterate ev₂ env var body elements) := by
  induction elements with
  | nil => exact keeps_pure _
  | cons element rest ih =>
    exact (keeps_newVector _ _).bind fun value => (agree_bindIn _ _ _).bind fun _ =>
      (agree_evaluate h _ _).bind fun _ => ih

theorem agree_genericRun (env : EnvId) (var : Symbol) (sequence body : Value) :
    untilExhausted.Agree (ev₁.genericRun env var sequence body)
      (R.genericRun ev₂ env var sequence body) := by
  unfold Restraint.genericRun
  split
  · exact agree_iterate h _ _ _ _
  · exact Contract.agree_genericRun h _ _ _ _

omit h in
theorem agree_bindResult (env : EnvId) (name : Symbol) (elements : Elements)
    (attributes : Attributes) :
    untilExhausted.AgreeFused (FusedM.bindResult env name elements attributes)
      (R.bindResult env name elements attributes) := by
  refine (AgreeFused.lift (keeps_newVector _ _)).bind fun value => ?_
  refine (AgreeFused.lift (agree_bindIn _ _ _).attempt).bind fun found => ?_
  cases found with
  | some _ => exact keeps_fusedPure _
  | none => exact keeps_fusedThrow _

theorem agree_fusedRun (loop : Accumulation) (env : EnvId) (var : Symbol) (sequence : Value) :
    untilExhausted.AgreeFused (ev₁.fusedRun loop env var sequence)
      (R.fusedRun ev₂ loop env var sequence) := by
  refine AgreeFused.bind (.forM (keeps_requireForced env)) fun _ => ?_
  refine AgreeFused.bind (.forM (agree_checkGuard h env)) fun _ => ?_
  cases sequence.plainDoubles? with
  | none => exact keeps_fusedThrow _
  | some index =>
    dsimp only
    cases index.back? with
    | none => exact keeps_fusedThrow _
    | some last =>
      refine (agree_readAccumulator h env _).bind fun (start, attributes) => ?_
      refine AgreeFused.bind (.mapM (agree_readInvariant h env)) fun given => ?_
      refine AgreeFused.bind (.lift keeps_get) fun s => ?_
      refine (keeps_ofBailout _).bind fun lane => (keeps_ofBailout _).bind fun increments =>
        (keeps_ofBailout _).bind fun total => ?_
      exact (agree_bindResult _ _ _ _).bind fun _ => agree_bindResult _ _ _ _

theorem agree_tryFused (call : Call) (env : EnvId) (var : Symbol) (sequence : Value) :
    untilExhausted.Agree (ev₁.tryFused call env var sequence)
      (R.tryFused ev₂ call env var sequence) := by
  have hrecord (status : LoopStatus) (change : LoopStats → LoopStats) (b : Bool) :
      untilExhausted.Keeps (do
        SessionM.setLoopStatus call status
        SessionM.count change
        return b) :=
    (untilExhausted_loopBlind.keeps_setLoopStatus _ _).bind fun _ =>
      (untilExhausted_loopBlind.keeps_count _).bind fun _ => keeps_pure _
  refine keeps_get.bind fun s => ?_
  cases (s.loops.status? call).bind LoopStatus.accumulation? with
  | none => exact keeps_pure _
  | some loop =>
    refine .ite (keeps_pure _) (Agree.bind (agree_fusedRun h _ _ _ _) fun outcome => ?_)
    cases outcome with
    | ok _ => exact hrecord _ _ _
    | error _ => exact hrecord _ _ _

theorem agree_runLoop (call : Call) (env : EnvId) (var : Symbol) (sequence body : Value) :
    untilExhausted.Agree (ev₁.runLoop call env var sequence body)
      (R.runLoop ev₂ call env var sequence body) := by
  refine keeps_get.bind fun s => .ite ?_ ?_
  · refine (untilExhausted_loopBlind.agree_ensureAnalyzed h _ _ _ _).bind fun _ => ?_
    refine (agree_tryFused h _ _ _ _).bind fun fused => .ite (keeps_pure _) ?_
    exact (untilExhausted_loopBlind.keeps_count _).bind fun _ =>
      (agree_genericRun h _ _ _ _).bind fun _ => keeps_pure _
  · exact (agree_genericRun h _ _ _ _).bind fun _ => keeps_pure _

end

/-- Until it gives up, the restrained evaluator does the same as the plain one. -/
theorem agreeAll (R : Restraint) (fuel : Nat) :
    untilExhausted.AgreeAll (CallByNeed.evaluator fuel) (R.evaluator fuel) := by
  induction fuel with
  | zero => exact ⟨fun _ => keeps_exhausted, fun _ _ => trivial⟩
  | succ fuel ih =>
    refine ⟨fun task => ?_, fun _ _ => trivial⟩
    cases task with
    | evaluate expr env => exact agree_evaluateExpr ih _ _
    | apply function call args env extra => exact agree_applyValue ih _ _ _ _ _
    | loop call env var sequence body => exact agree_runLoop ih _ _ _ _ _

end

end Restraint

end CallByNeed
