import CallByNeed.Proofs.Positions.Loops
import CallByNeed.Proofs.Returns.Active

/-!
# Evaluation by position

The evaluator that reads by position.  Making a frame takes a slot from the free
list and a collection counts the frames that are left, which needs a heap that is
well-formed; every other reading is in range anyway.  So in the sessions that
evaluation passes through the evaluator does what the plain one does, whatever
the trap (`agreeAll_evaluator`), and it never springs it.
-/

namespace CallByNeed

namespace Positional

variable (trap : Trap)

/-! ## Frames -/

def allocate (parent : Option EnvId) : SessionM EnvId := do
  let s ← get
  let (env, heap) ← reach trap (insert s.heap (.empty parent))
  set { s with heap }
  return env

def collectFrom (roots : List EnvId) (values : List Value) : SessionM Nat := do
  let s ← get
  match ← reach trap (collect s.heap s.promises roots values) with
  | some (freed, heap) =>
    set { s with heap }
    return freed
  | none => throw .exhausted

def collectGarbage (extra : List Value) : SessionM Nat := do
  let s ← get
  collectFrom trap s.rootEnvs (extra ++ s.rootValues)

def collectIfDue (result : Value) : SessionM Unit := do
  let s ← get
  if s.depth = 0 && s.options.gcThreshold ≤ s.heap.allocatedSinceCollect then
    let _ ← collectGarbage trap [result]

/-! ## Invocations -/

def bindArguments (formals actuals : ArgList) (env : EnvId) : SessionM Unit := do
  let matched ← perform trap (matchFormals formals actuals true)
  (formals.zip matched).forM fun (formal, arg) => SessionM.bindFormal env formal arg.value

def invoke (ev : Evaluator) (closure : Closure) (callerEnv : EnvId) (call : Call)
    (args : ArgList) (extra : List (Symbol × Value)) : SessionM Value := do
  let env ← allocate trap (some closure.env)
  SessionM.withInvocation ⟨env, callerEnv, closure, call, args⟩ do
    bindArguments trap closure.formals args env
    extra.forM fun (name, value) => SessionM.bindIn env name value
    SessionM.catchReturn env (ev.evaluate closure.body env)

/-! ## Methods and namespaces -/

def requireMethodsTable (env : EnvId) : SessionM EnvId := do
  match ← SessionM.methodsTable env with
  | some table => return table
  | none =>
    let table ← allocate trap (some (← get).baseEnv)
    SessionM.bindIn env methodsTableName (.environment table)
    return table

def registerMethod (generic className : String) (method : Value) (definitionEnv : EnvId) :
    SessionM Unit := do
  let table ← requireMethodsTable trap definitionEnv
  SessionM.bindIn table (methodName generic className) method

def loadNamespace (name : Symbol) : SessionM Namespace := do
  let s ← get
  match s.namespaces.get? name with
  | some ns => return ns
  | none =>
    let env ← allocate trap (some s.namespaces.baseEnv)
    let ns : Namespace := ⟨name, env, [], false⟩
    modify fun s =>
      { s with
        namespaces := { s.namespaces with
          loaded := s.namespaces.loaded ++ [(name, ns)]
          owners := s.namespaces.owners ++ [(env, name)] } }
    return ns

def namespaceOf (value : Value) : SessionM Namespace := do
  let notNamespace := EvalError.invalidArgument "not a namespace"
  match value with
  | .environment env =>
    match (← get).namespaces.byEnv? env with
    | some ns => return ns
    | none => SessionM.fail notNamespace
  | other =>
    match ← reach trap (nameText? other) with
    | some name => loadNamespace trap ⟨name⟩
    | none => SessionM.fail notNamespace

section

variable (ev : Evaluator)

def methodOf (method : Value) (env : EnvId) : SessionM Value := do
  if method.isFunction then return method
  match ← reach trap (singleString? method) with
  | some name => ev.requireFunction env ⟨name⟩
  | none => SessionM.fail (.invalidArgument ("Invalid method argument of type " ++ method.typeName))

def registerMethodFrom (generic className : String) (method : Value) (env : EnvId) :
    SessionM Unit := do
  match ← ev.genericEnv generic env with
  | none => SessionM.fail (.notFound ("Cannot find generic function '" ++ generic ++ "'"))
  | some definitionEnv =>
    let method ← methodOf trap ev method env
    registerMethod trap generic className method definitionEnv

def registerMethodBuiltin (args : ArgList) (env : EnvId) : SessionM Value := do
  let builtin := NamespaceQuery.registerMethod.name
  let values ← perform trap (argsByName args ["genname", "class", "method", "envir"])
  let generic ← SessionM.ofExcept (requireArg builtin values 0)
  let generic ← perform trap (nameArg generic "genname")
  let className ← SessionM.ofExcept (requireArg builtin values 1)
  let className ← perform trap (nameArg className "class")
  let method ← SessionM.ofExcept (requireArg builtin values 2)
  let env ← SessionM.ofExcept (environmentOr env (← reach trap values[3]?))
  registerMethodFrom trap ev generic className method env
  return .null

/-- The argument of a query that has one formal. -/
def only (query : NamespaceQuery) (args : ArgList) (formal : String) : SessionM Value := do
  let values ← perform trap (argsByName args [formal])
  SessionM.ofExcept (requireArg query.name values 0)

def runNamespaceQuery (query : NamespaceQuery) (args : ArgList) (env : EnvId) :
    SessionM Value := do
  match query with
  | .registerMethod => registerMethodBuiltin trap ev args env
  | .load =>
    let name ← perform trap (nameArg (← only trap query args "name") "name")
    return .environment (← loadNamespace trap ⟨name⟩).env
  | .isNamespace =>
    match ← only trap query args "ns" with
    | .environment id => SessionM.newLogical ((← get).namespaces.isNamespaceEnv id)
    | _ => SessionM.newLogical false
  | .loaded => SessionM.newStrings ((← get).namespaces.names.map Symbol.name)
  | .nameOf => SessionM.namespaceName (← namespaceOf trap (← only trap query args "ns"))
  | .exportsOf =>
    let ns ← namespaceOf trap (← only trap query args "ns")
    SessionM.newStrings (ns.exports.map Symbol.name)
  | .importsOf =>
    let ns ← namespaceOf trap (← only trap query args "ns")
    let _ ← SessionM.ofExcept ((← get).namespaces.imports ns.name)
    return .null
  | .lookUp =>
    let name ← perform trap (nameArg (← only trap query args "name") "name")
    match (← get).namespaces.registered? name with
    | some id => return .environment id
    | none => return .null

def introspect (query : Introspection) (args : ArgList) (env : EnvId) : SessionM Value :=
  match query with
  | .collect => do SessionM.newDouble (← collectGarbage trap []).toFloat
  | query => SessionM.introspect query args env

/-! ## Builtins and expressions -/

def runArithmetic (op : BinaryOp) (args : ArgList) (env : EnvId) : SessionM Value := do
  match ← dispatchOperator trap ev op.spelling env args with
  | some value => return value
  | none => deliver trap (arithmetic op args)

def runEager (builtin : EagerBuiltin) (args : ArgList) (env : EnvId) : SessionM Value :=
  match builtin with
  | .arithmetic op => runArithmetic trap ev op args env
  | .compare op => deliver trap (compare op args)
  | .margin op => deliver trap (margin op args)
  | .withAttributes => deliver trap (withAttributes args)
  | .attributeOf => deliver trap (attributeOf args)
  | .classOf => deliver trap (classOf args)
  | .environmentOf => deliver trap (environmentOf args env)
  | .namespaces query => runNamespaceQuery trap ev query args env
  | .introspect query => introspect trap query args env
  | builtin => ev.runEager builtin args env

def evaluateCall (call : Call) (env : EnvId) : SessionM Value := do
  match ← ev.functionOf call env with
  | .closure closure =>
    let args ← SessionM.suspendArgs call.args env
    invoke trap ev closure env call args []
  | .builtin _ (.special form) => runSpecial trap ev form call env
  | .builtin _ (.eager builtin) =>
    let args ← ev.argValues call.args env
    runEager trap ev builtin args env
  | other => SessionM.fail (.notAFunction other.typeName)

def evaluateExpr (expr : Value) (env : EnvId) : SessionM Value :=
  match expr with
  | .call call => evaluateCall trap ev call env
  | expr => ev.evaluateExpr expr env

def applyValue (function : Value) (call : Call) (args : ArgList) (env : EnvId)
    (extra : List (Symbol × Value)) : SessionM Value :=
  match function with
  | .closure closure => invoke trap ev closure env call args extra
  | .builtin _ (.special form) => runSpecial trap ev form call env
  | .builtin _ (.eager builtin) => do
    let args ← args.mapM ev.forceArg
    runEager trap ev builtin args env
  | other => SessionM.fail (.notAFunction other.typeName)

def step : Task → SessionM Value
  | .evaluate expr env => evaluateExpr trap ev expr env
  | .apply function call args env extra => applyValue trap ev function call args env extra
  | .loop call env var sequence body => runLoop trap ev call env var sequence body

end

/-- The evaluator of some fuel, reading by position. -/
def evaluator : (fuel : Nat) → Evaluator
  | 0, _ => throw .exhausted
  | fuel + 1, task => step trap (evaluator fuel) task

def evalIn (fuel : Nat) (expr : Value) (env : EnvId) : SessionM Value := do
  let value ← SessionM.atTopLevel ((evaluator trap fuel).evaluate expr env)
  collectIfDue trap value
  return value

/-- The evaluation that begins with an entry. -/
def run (fuel : Nat) : Evaluator.Entry → SessionM Value
  | .invoke closure callerEnv call args extra =>
    invoke trap (evaluator trap fuel) closure callerEnv call args extra
  | .apply function call args env extra =>
    applyValue trap (evaluator trap fuel) function call args env extra
  | entry => entry.run (evaluator trap fuel)

/-! ## Builtins that make no frame -/

theorem runEager_eq (ev : Evaluator) {builtin : EagerBuiltin}
    (hnamespaces : ∀ query, builtin ≠ .namespaces query)
    (hintrospect : ∀ query, builtin ≠ .introspect query) (args : ArgList) (env : EnvId) :
    runEager trap ev builtin args env = ev.runEager builtin args env := by
  cases builtin with
  | arithmetic op =>
    simp only [runEager, runArithmetic, dispatchOperator_eq, arithmetic_eq, deliver_ends]
    rfl
  | compare op => exact congrArg (deliver trap) (compare_eq op args)
  | margin op => exact congrArg (deliver trap) (margin_eq op args)
  | withAttributes => exact congrArg (deliver trap) (withAttributes_eq args)
  | attributeOf => exact congrArg (deliver trap) (attributeOf_eq args)
  | classOf => exact congrArg (deliver trap) (classOf_eq args)
  | environmentOf => exact congrArg (deliver trap) (environmentOf_eq args env)
  | namespaces query => exact absurd rfl (hnamespaces query)
  | introspect query => exact absurd rfl (hintrospect query)
  | sequence | combine | length | math | reduce => rfl

/-! ## Sessions with a well-formed heap -/

section

variable {trap} {s : Session} (hwf : s.heap.WellFormed) {α β : Type}

/-- What follows two actions that do the same in a session. -/
theorem bind_congr_run {x y : SessionM α} {f g : α → SessionM β} (hx : x s = y s)
    (hf : ∀ a t, y s = (.ok a, t) → f a t = g a t) : (x >>= f) s = (y >>= g) s := by
  rcases hy : y s with ⟨e | a, t⟩
  · rw [SessionM.bind_run_error hy, SessionM.bind_run_error (hx.trans hy)]
  · rw [SessionM.bind_run_ok hy, SessionM.bind_run_ok (hx.trans hy), hf a t hy]

theorem bind_left_run {x y : SessionM α} (hx : x s = y s) (f : α → SessionM β) :
    (x >>= f) s = (y >>= f) s :=
  bind_congr_run hx fun _ _ _ => rfl

/-- Something that leaves the session alone may come first. -/
theorem ofExcept_bind_run {r : Except EvalError α} {f g : α → SessionM β}
    (hf : ∀ a, f a s = g a s) :
    (SessionM.ofExcept r >>= f) s = (SessionM.ofExcept r >>= g) s := by
  cases r with
  | error e => rfl
  | ok a => exact hf a

include hwf

theorem allocate_run (parent : Option EnvId) :
    allocate trap parent s = SessionM.allocate parent s := by
  rw [allocate, SessionM.get_bind_run, insert_eq hwf]
  rfl

theorem collectGarbage_run (extra : List Value) :
    collectGarbage trap extra s = SessionM.collect extra s := by
  simp only [collectGarbage, collectFrom, SessionM.get_bind_run, collect_eq hwf, reach_some,
    pure_bind]
  rfl

theorem collectIfDue_run (result : Value) :
    collectIfDue trap result s = SessionM.collectIfDue result s := by
  unfold collectIfDue SessionM.collectIfDue
  simp only [SessionM.get_bind_run]
  split
  · exact bind_left_run (collectGarbage_run hwf _) _
  · rfl

theorem invoke_run (ev : Evaluator) (closure : Closure) (callerEnv : EnvId) (call : Call)
    (args : ArgList) (extra : List (Symbol × Value)) :
    invoke trap ev closure callerEnv call args extra s =
      ev.invoke closure callerEnv call args extra s := by
  have hbind (env : EnvId) : bindArguments trap closure.formals args env =
      SessionM.bindArguments closure.formals args env := by
    rw [bindArguments, matchFormals_eq, perform_ends]
    rfl
  unfold invoke Evaluator.invoke
  simp only [hbind]
  -- making the frame is all that depends on the heap
  exact bind_left_run (allocate_run hwf _) _

theorem registerMethod_run (generic className : String) (method : Value) (env : EnvId) :
    registerMethod trap generic className method env s =
      SessionM.registerMethod generic className method env s := by
  refine bind_left_run (ofExcept_bind_run fun table => ?_) _
  cases table with
  | some table => rfl
  | none => exact bind_left_run (allocate_run hwf _) _

theorem loadNamespace_run (name : Symbol) :
    loadNamespace trap name s = SessionM.loadNamespace name s := by
  rw [loadNamespace, SessionM.get_bind_run, SessionM.loadNamespace, SessionM.modifyGet_run,
    Namespaces.load]
  cases s.namespaces.get? name with
  | some ns => rfl
  | none =>
    exact bind_left_run (allocate_run hwf _) _

theorem namespaceOf_run (value : Value) :
    namespaceOf trap value s = SessionM.namespaceOf value s := by
  have hnamed (found : Option String) (e : EvalError) :
      (match found with
        | some name => loadNamespace trap ⟨name⟩
        | none => SessionM.fail e) s =
      (match found with
        | some name => SessionM.loadNamespace ⟨name⟩
        | none => SessionM.fail e) s := by
    cases found with
    | some name => exact loadNamespace_run hwf _
    | none => rfl
  cases value with
  | environment env => rfl
  | _ =>
    simp only [namespaceOf, SessionM.namespaceOf, nameText?_eq, reach_some, pure_bind]
    generalize Value.nameText? _ = found
    exact hnamed found _

/-- A query other than a registration evaluates nothing, so the frame that it may need is made in
    the session that it begins in. -/
theorem runNamespaceQuery_run (ev : Evaluator) {query : NamespaceQuery}
    (hquery : query ≠ .registerMethod) (args : ArgList) (env : EnvId) :
    runNamespaceQuery trap ev query args env s = ev.runNamespaceQuery query args env s := by
  have honly (formal : String) : only trap query args formal = (do
      let values ← SessionM.ofExcept (CallByNeed.argsByName args [formal])
      SessionM.ofExcept (requireArg query.name values 0)) := by
    rw [only, argsByName_eq, perform_ends]
  unfold runNamespaceQuery Evaluator.runNamespaceQuery
  simp only [honly, nameArg_eq, perform_ends, bind_assoc]
  cases query with
  | registerMethod => exact absurd rfl hquery
  | load =>
    exact ofExcept_bind_run fun _ => ofExcept_bind_run fun _ => ofExcept_bind_run fun _ =>
      bind_left_run (loadNamespace_run hwf _) _
  | nameOf | exportsOf | importsOf =>
    exact ofExcept_bind_run fun _ => ofExcept_bind_run fun _ =>
      bind_left_run (namespaceOf_run hwf _) _
  | isNamespace | loaded | lookUp => rfl

end

/-! ## Agreement with the plain evaluator -/

section

open Contract

variable {trap} {ev₁ ev₂ : Evaluator} {α : Type}

/-- An action that does in every well-formed session what another one does agrees with what that one
    agrees with. -/
theorem agree_of_run {x x' y : SessionM α} (hx : ∀ s : Session, s.heap.WellFormed → x s = x' s)
    (h : activeReturns.Agree x' y) : activeReturns.Agree x y := by
  intro s hinv
  obtain ⟨hsame, hrel, hraises⟩ := h s hinv
  exact ⟨by rwa [hx s hinv.wellFormed], hrel, hraises⟩

variable (h : activeReturns.AgreeAll ev₁ ev₂)
include h

theorem agree_invoke (closure : Closure) (callerEnv : EnvId) (call : Call) (args : ArgList)
    (extra : List (Symbol × Value)) :
    activeReturns.Agree (invoke trap ev₁ closure callerEnv call args extra)
      (ev₂.invoke closure callerEnv call args extra) :=
  agree_of_run (fun _ hwf => invoke_run hwf ev₁ _ _ _ _ _) (Contract.agree_invoke h _ _ _ _ _)

theorem agree_registerMethodFrom (generic className : String) (method : Value) (env : EnvId) :
    activeReturns.Agree (registerMethodFrom trap ev₁ generic className method env)
      (ev₂.registerMethodFrom generic className method env) := by
  have hmethod : methodOf trap ev₁ method env = ev₁.methodOf method env := by
    simp only [methodOf, singleString?_eq, reach_some, pure_bind]
    rfl
  refine (agree_genericEnv h generic env).bind fun definitionEnv => ?_
  cases definitionEnv with
  | none => exact keeps_fail rfl
  | some definitionEnv =>
    rw [hmethod]
    exact (agree_methodOf h method env).bind fun method =>
      agree_of_run (fun _ hwf => registerMethod_run hwf _ _ _ _) (keeps_registerMethod _ _ _ _)

theorem agree_registerMethodBuiltin (args : ArgList) (env : EnvId) :
    activeReturns.Agree (registerMethodBuiltin trap ev₁ args env)
      (ev₂.registerMethodBuiltin args env) := by
  unfold registerMethodBuiltin Evaluator.registerMethodBuiltin
  simp only [argsByName_eq, nameArg_eq, perform_ends]
  cases hvalues : CallByNeed.argsByName args ["genname", "class", "method", "envir"] with
  | error e => exact keeps_fail ((plain_argsByName _ _).overflowless e hvalues)
  | ok values =>
    -- matching gave each of the four formals a value
    have henvir : 3 < values.length := by
      rw [length_argsByName hvalues]
      decide
    have hlast : values[3]? = some values[3] := List.getElem?_eq_getElem henvir
    simp only [SessionM.ofExcept_ok, pure_bind, hlast, reach_some, Option.getD_some]
    exact agree_registration (agree_registerMethodFrom h) values _ env

theorem agree_runEager (builtin : EagerBuiltin) (args : ArgList) (env : EnvId) :
    activeReturns.Agree (runEager trap ev₁ builtin args env) (ev₂.runEager builtin args env) := by
  cases builtin with
  | namespaces query =>
    by_cases hquery : query = .registerMethod
    · subst hquery
      exact agree_registerMethodBuiltin h args env
    · exact agree_of_run (fun _ hwf => runNamespaceQuery_run hwf ev₁ hquery args env)
        (agree_runNamespaceQuery h query args env)
  | introspect query =>
    refine agree_of_run (fun _ hwf => ?_) (keeps_introspect query args env)
    cases query with
    | collect => exact bind_left_run (collectGarbage_run hwf []) _
    | _ => rfl
  | _ =>
    rw [runEager_eq trap ev₁ (by simp) (by simp)]
    exact Contract.agree_runEager h _ args env

theorem agree_evaluateCall (call : Call) (env : EnvId) :
    activeReturns.Agree (evaluateCall trap ev₁ call env) (ev₂.evaluateCall call env) := by
  refine (agree_functionOf h call env).bind fun function => ?_
  cases function with
  | closure closure => exact (keeps_suspendArgs _ _).bind fun _ => agree_invoke h _ _ _ _ _
  | builtin _ b =>
    cases b with
    | special form =>
      dsimp only
      rw [runSpecial_eq]
      exact agree_runSpecial h _ _ _
    | eager builtin => exact (agree_argValues h _ _).bind fun _ => agree_runEager h _ _ _
  | _ => exact keeps_fail rfl

theorem agree_evaluateExpr (expr : Value) (env : EnvId) :
    activeReturns.Agree (evaluateExpr trap ev₁ expr env) (ev₂.evaluateExpr expr env) := by
  unfold evaluateExpr
  split
  · exact agree_evaluateCall h _ _
  · exact Contract.agree_evaluateExpr h _ _

theorem agree_applyValue (function : Value) (call : Call) (args : ArgList) (env : EnvId)
    (extra : List (Symbol × Value)) :
    activeReturns.Agree (applyValue trap ev₁ function call args env extra)
      (ev₂.applyValue function call args env extra) := by
  cases function with
  | closure closure => exact agree_invoke h _ _ _ _ _
  | builtin _ b =>
    cases b with
    | special form =>
      rw [applyValue, runSpecial_eq]
      exact agree_runSpecial h _ _ _
    | eager builtin => exact Agree.bind (.mapM (agree_forceArg h)) fun _ => agree_runEager h _ _ _
  | _ => exact keeps_fail rfl

theorem agree_step : ∀ task, activeReturns.Agree (step trap ev₁ task) (ev₂.step task)
  | .evaluate expr env => agree_evaluateExpr h expr env
  | .apply function call args env extra => agree_applyValue h function call args env extra
  | .loop call env var sequence body => by
    rw [step, runLoop_eq]
    exact activeReturns_loopBlind.closed h call env var sequence body

omit h in
theorem agreeAll_evaluator (fuel : Nat) :
    activeReturns.AgreeAll (evaluator trap fuel) (CallByNeed.evaluator fuel) := by
  induction fuel with
  | zero => exact ⟨fun _ => keeps_exhausted, fun _ _ => trivial⟩
  | succ fuel ih => exact ⟨agree_step ih, fun _ _ => trivial⟩

omit h in
theorem agree_run (fuel : Nat) (entry : Evaluator.Entry) :
    activeReturns.Agree (run trap fuel entry) (entry.run (CallByNeed.evaluator fuel)) := by
  have hev : activeReturns.AgreeAll (evaluator trap fuel) (CallByNeed.evaluator fuel) :=
    agreeAll_evaluator fuel
  cases entry with
  | invoke closure callerEnv call args extra => exact agree_invoke hev _ _ _ _ _
  | apply function call args env extra => exact agree_applyValue hev _ _ _ _ _
  | evaluate expr env => exact agree_entry hev (.evaluate expr env)
  | demand id => exact agree_entry hev (.demand id)
  | callFunction function args env => exact agree_entry hev (.callFunction function args env)

end

/-! ## Top level -/

section

variable {trap} {s : Session}

/-- A collection at the end of an evaluation finds the well-formed heap that the evaluation left. -/
theorem evalIn_run (hs : s.Staffed) (fuel : Nat) (expr : Value) (env : EnvId) :
    evalIn trap fuel expr env s = (CallByNeed.evaluator fuel).evalIn expr env s := by
  have hagree : Contract.activeReturns.AgreeAll (evaluator trap fuel) (CallByNeed.evaluator fuel) :=
    agreeAll_evaluator fuel
  obtain ⟨hsame, hrel, -⟩ := hagree (.evaluate expr env) s hs
  have heval : (evaluator trap fuel).evaluate expr env s =
      (CallByNeed.evaluator fuel).evaluate expr env s := hsame.resolve_right fun h => h.1
  have htop : SessionM.atTopLevel ((evaluator trap fuel).evaluate expr env) s =
      SessionM.atTopLevel ((CallByNeed.evaluator fuel).evaluate expr env) s := by
    simp only [SessionM.atTopLevel, heval]
  refine bind_congr_run htop fun value t hrun => bind_left_run (collectIfDue_run ?_ value) _
  have hend : (CallByNeed.evaluator fuel (.evaluate expr env) s).2 = t := by
    unfold SessionM.atTopLevel at hrun
    split at hrun
    · cases hrun
    · exact congrArg Prod.snd hrun
  exact hend ▸ hrel.wellFormed hs.wellFormed

/-- No return leaves a top-level evaluation. -/
theorem evalIn_ne_returning (ev : Evaluator) (expr : Value) (env target : EnvId) (value : Value) :
    (ev.evalIn expr env s).1 ≠ .error (.returning target value) := by
  unfold Evaluator.evalIn
  rcases htop : SessionM.atTopLevel (ev.evaluate expr env) s with ⟨e | v, t⟩
  · rw [SessionM.bind_run_error htop]
    rintro ⟨rfl⟩
    unfold SessionM.atTopLevel at htop
    split at htop
    · cases htop
    · rename_i hpassed
      exact hpassed _ _ _ htop
  · rw [SessionM.bind_run_ok htop, SessionM.collectIfDue, bind_assoc, SessionM.get_bind_run]
    split
    · cases hfreed : t.heap.collect t.promises t.rootEnvs ([v] ++ t.rootValues) with
      | none =>
        rw [bind_assoc, SessionM.bind_run_error (SessionM.collect_run_refused hfreed)]
        rintro ⟨⟩
      | some result =>
        rw [bind_assoc, SessionM.bind_run_ok (SessionM.collect_run hfreed)]
        rintro ⟨⟩
    · rintro ⟨⟩

end

end Positional

variable {options : Options} {kernels : KernelTable} {s : Session}

/-- No reading leaves its vector.  In a reachable session every task, every entry, every top-level
    evaluation and every collection does the same by position, whatever trap a position that is not
    there springs; and a top-level evaluation that does not run out of fuel ends with a value or an
    error.  The kernels of the margins and the look-ups of interned names find what they read. -/
theorem Session.Reachable.reads_in_range (h : s.Reachable options kernels)
    (trap : Positional.Trap) :
    (∀ fuel task, Positional.evaluator trap fuel task s = evaluator fuel task s) ∧
    (∀ fuel entry, Positional.run trap fuel entry s = entry.run (evaluator fuel) s) ∧
    (∀ fuel expr env,
      let outcome := ((evaluator fuel).evalIn expr env s).1
      Positional.evalIn trap fuel expr env s = (evaluator fuel).evalIn expr env s ∧
      (outcome = .error .exhausted ∨ (∃ value, outcome = .ok value) ∨
        ∃ e, outcome = .error (.failure e))) ∧
    (∀ extra, Positional.collectGarbage trap extra s = SessionM.collect extra s) ∧
    (∀ op operation input, Positional.marginKernel op operation input =
      some ((Positional.kernelOf op).compute operation input)) ∧
    ∀ names later, ∀ id ∈ SymbolTable.missingId :: SymbolTable.ellipsisId ::
        (SymbolTable.initial.internAll names).1,
      (Positional.symbolOf ((SymbolTable.initial.internAll names).2.internAll later).2
        (id.index + 1)).isSome := by
  have hs : s.Staffed := h.staffed
  refine ⟨fun fuel task => ?_, fun fuel entry => ?_, fun fuel expr env => ?_,
    fun extra => Positional.collectGarbage_run hs.wellFormed extra, Positional.marginKernel_eq,
    fun names later id hid => Positional.isSome_symbolOf later hid⟩
  · exact ((Positional.agreeAll_evaluator fuel).tasks task s hs).same.resolve_right fun h => h.1
  · exact (Positional.agree_run fuel entry s hs).same.resolve_right fun h => h.1
  · refine ⟨Positional.evalIn_run hs fuel expr env, ?_⟩
    rcases hrun : ((evaluator fuel).evalIn expr env s).1 with (e | ⟨target, value⟩ | _) | value
    · exact .inr (.inr ⟨e, rfl⟩)
    · exact absurd hrun (Positional.evalIn_ne_returning _ _ _ _ _)
    · exact .inl rfl
    · exact .inr (.inl ⟨value, rfl⟩)

/-- A call of `quote` reads its first argument, unless it has none: then the arity is wrong. -/
theorem reads_in_range_quote :
    let s := Session.initial {} .standard
    let trap : Positional.Trap := fun s => (.exhausted, { s with preserved := [] })
    let quote (args : ArgList) : Task :=
      .apply (.builtin ⟨0⟩ (.special .quote)) ⟨⟨100⟩, .symbol ⟨"quote"⟩, args⟩ [] s.globalEnv []
    (Positional.evaluator trap 1 (quote []) s).1 =
      .error (.failure (arityError "quote" 0 1 1)) ∧
    (Positional.evaluator trap 1 (quote [.untagged (.symbol ⟨"x"⟩)]) s).1 =
      .ok (.symbol ⟨"x"⟩) := by
  intro s trap quote
  have hreads := (Session.Reachable.initial : s.Reachable {} .standard).reads_in_range trap
  rw [hreads.1, hreads.1]
  exact ⟨rfl, rfl⟩

end CallByNeed
