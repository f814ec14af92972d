import CallByNeed.Builtin.Special
import CallByNeed.Proofs.Positions.Answers

/-!
# Special forms and dispatch by position

A special form reads the arguments of its call by position, once it has checked
how many there are.  Dispatch goes through the classes of an object by position
and hands on the slice from the one that has a method.

In a session, a reading of a position that is not there springs a `Trap`: it
interrupts the action and leaves any mark in the session.  Each routine is equal
to the one that it spells out, whatever the trap is.  As a trap may be one that
nothing catches, with a mark of its own, none is ever sprung.
-/

namespace CallByNeed.Positional

/-- What happens when a position is not there: an interrupt, and what is left of the session. -/
abbrev Trap := Session → Interrupt × Session

variable (trap : Trap) {α : Type}

/-! ## Readings in a session -/

/-- What was read; if it was not there, the trap is sprung. -/
def reach : Option α → SessionM α
  | some a => pure a
  | none => fun s => (.error (trap s).1, (trap s).2)

def perform (act : ReadM EvalError α) : SessionM α := do
  SessionM.ofExcept (← reach trap act.run)

def deliver (act : ReadM EvalError Answer) : SessionM Value := do
  SessionM.deliver (← reach trap act.run)

/-- The argument at position `i` of a call. -/
def argAt (call : Call) (i : Nat) : SessionM Value :=
  reach trap (call.args[i]?.map (·.value))

theorem reach_some (a : α) : reach trap (some a) = pure a := rfl

theorem perform_ends (r : Except EvalError α) : perform trap (ends r) = SessionM.ofExcept r := rfl

theorem deliver_ends (r : Except EvalError Answer) : deliver trap (ends r) = SessionM.deliver r :=
  rfl

/-! ## Arguments of a special form -/

def oneArg (call : Call) (form : SpecialForm) : SessionM Value := do
  SessionM.requireArity call form 1 1
  argAt trap call 0

def twoArgs (call : Call) (form : SpecialForm) : SessionM (Value × Value) := do
  SessionM.requireArity call form 2 2
  return (← argAt trap call 0, ← argAt trap call 1)

/-- The check of the arity fails for a call that has too many arguments. -/
theorem requireArity_of_lt {call : Call} (form : SpecialForm) {least most : Nat}
    (h : most < call.args.length) :
    SessionM.requireArity call form least most =
      SessionM.fail (arityError form.name call.args.length least most) := by
  simp [SessionM.requireArity, h]

theorem fail_bind {β : Type} (e : EvalError) (f : α → SessionM β) :
    SessionM.fail e >>= f = SessionM.fail e := rfl

theorem oneArg_eq (call : Call) (form : SpecialForm) :
    oneArg trap call form = SessionM.oneArg call form := by
  obtain ⟨identity, function, args⟩ := call
  match args with
  | [] | [_] => rfl
  | _ :: _ :: rest =>
    -- of a call with too many arguments none is read
    rw [oneArg, requireArity_of_lt form (by simp), fail_bind]
    rfl

theorem twoArgs_eq (call : Call) (form : SpecialForm) :
    twoArgs trap call form = SessionM.twoArgs call form := by
  obtain ⟨identity, function, args⟩ := call
  match args with
  | [] | [_] | [_, _] => rfl
  | _ :: _ :: _ :: rest =>
    rw [twoArgs, requireArity_of_lt form (by simp), fail_bind]
    rfl

/-! ## Forms that evaluate nothing -/

def assignmentTarget (target : Value) : SessionM Symbol :=
  let invalid :=
    EvalError.invalidArgument ("invalid assignment target (got " ++ target.typeName ++ ")")
  match target with
  | .symbol name => if name.isMissing || name.isEllipsis then SessionM.fail invalid else pure name
  | _ => do
    match ← reach trap (singleString? target) with
    | some text => return ⟨text⟩
    | none => SessionM.fail invalid

def makeFunction (call : Call) (env : EnvId) : SessionM Value := do
  let (formals, body) ← twoArgs trap call .function
  let formals ←
    match formals with
    | .list formals => pure formals
    | .null => pure []
    | other =>
      SessionM.fail
        (.invalidArgument ("invalid formal argument list (got " ++ other.typeName ++ ")"))
  return .closure ⟨← SessionM.newIdentity, formals, body, env⟩

def missingForm (call : Call) (env : EnvId) : SessionM Value := do
  let arg ← oneArg trap call .missing
  match ← reach trap (nameText? arg) with
  | some name => SessionM.newLogical (← SessionM.isMissing env ⟨name⟩)
  | none => SessionM.fail (.invalidArgument "invalid use of 'missing'")

theorem assignmentTarget_eq (target : Value) :
    assignmentTarget trap target = SessionM.assignmentTarget target := by
  simp only [assignmentTarget, singleString?_eq, reach_some, pure_bind]
  rfl

theorem makeFunction_eq (call : Call) (env : EnvId) :
    makeFunction trap call env = SessionM.makeFunction call env := by
  rw [makeFunction, twoArgs_eq]
  rfl

theorem missingForm_eq (call : Call) (env : EnvId) :
    missingForm trap call env = SessionM.missingForm call env := by
  simp only [missingForm, oneArg_eq, nameText?_eq, reach_some, pure_bind]
  rfl

/-! ## Dispatch -/

section

variable (ev : Evaluator)

/-- The first class that has a method, where each class stands beside its position. -/
def methodForClasses (generic : String) (env : EnvId) (table : Option EnvId)
    (classes : Array String) : List (String × Nat) → SessionM (Option SelectedMethod)
  | [] => return none
  | (className, i) :: rest => do
    let name := methodName generic className
    match ← ev.method? name env table with
    | some method =>
      let onward ← reach trap (slice classes i classes.size)
      return some ⟨method, name, onward.toList⟩
    | none => methodForClasses generic env table classes rest

def methodOrDefault (generic : String) (classes : List String) (env : EnvId)
    (table : Option EnvId) : SessionM (Option SelectedMethod) := do
  match ← methodForClasses trap ev generic env table classes.toArray classes.zipIdx with
  | some selected => return some selected
  | none =>
    let name := methodName generic "default"
    return (← ev.method? name env table).map fun method => ⟨method, name, []⟩

def selectMethod (generic : String) (classes : List String) (env : EnvId)
    (definitionEnv : Option EnvId) : SessionM (Option SelectedMethod) := do
  match definitionEnv with
  | some definitionEnv =>
    methodOrDefault trap ev generic classes env (← SessionM.methodsTable definitionEnv)
  | none => methodOrDefault trap ev generic classes env none

def applyMethod (generic : String) (object : Value) (invocation : Invocation) (env : EnvId) :
    SessionM Value := do
  let classes ← reach trap (classes object)
  let definitionEnv := (← ev.genericEnv generic invocation.callerEnv).getD invocation.closure.env
  match ← selectMethod trap ev generic classes invocation.callerEnv (some definitionEnv) with
  | none => SessionM.fail (.noApplicableMethod generic (classes.head?.getD ""))
  | some selected =>
    let extra :=
      [(⟨".Generic"⟩, ← SessionM.newString generic),
        (⟨".Class"⟩, ← Evaluator.classesValue selected.classes)]
    let value ←
      ev (.apply selected.method invocation.call invocation.args invocation.callerEnv extra)
    throw (.returning env value)

def useMethod (generic : String) (object : Option Value) (env : EnvId) : SessionM Value := do
  match (← get).invocationOf? env with
  | none => SessionM.fail (.invalidArgument "UseMethod called from outside a function")
  | some invocation =>
    match object with
    | some object => applyMethod trap ev generic object invocation env
    | none =>
      applyMethod trap ev generic (← ev.receiver invocation.closure.formals env) invocation env

def operatorMethodNames (op : String) (args : ArgList) : Option (List Symbol) := do
  let names ← args.mapM fun arg => do
    if arg.value.hasClassAttribute then
      return (← classes arg.value).flatMap fun className =>
        [methodName op className, methodName "Ops" className]
    else return []
  return names.flatten

def dispatchOperator (op : String) (env : EnvId) (args : ArgList) :
    SessionM (Option Value) := do
  let table ← SessionM.methodsTable (← get).namespaces.baseEnv
  match ← ev.firstMethod env table (← reach trap (operatorMethodNames op args)) with
  | none => return none
  | some method =>
    let promised ← args.mapM fun arg =>
      return Arg.new arg.tag (← SessionM.newKept arg.value arg.value)
    let call ← SessionM.newCall (.symbol ⟨op⟩) args
    let extra := [(⟨".Generic"⟩, ← SessionM.newString op)]
    return some (← ev (.apply method call promised env extra))

/-- The classes that are left are those from the position of the first of them onward. -/
theorem methodForClasses_eq (generic : String) (env : EnvId) (table : Option EnvId)
    (seen rest : List String) :
    methodForClasses trap ev generic env table (seen ++ rest).toArray
        (rest.zipIdx seen.length) =
      ev.methodForClasses generic env table rest := by
  induction rest generalizing seen with
  | nil => rfl
  | cons className rest ih =>
    have honward : slice (seen ++ className :: rest).toArray seen.length
        (seen ++ className :: rest).toArray.size = some (className :: rest).toArray := by
      rw [slice_eq (by simp) (Nat.le_refl _)]
      simp
    -- the next class stands one position further on
    have hrest := ih (seen ++ [className])
    rw [List.append_assoc, List.singleton_append, List.length_append, List.length_singleton]
      at hrest
    simp only [List.zipIdx_cons, methodForClasses, honward, reach_some, pure_bind, hrest]
    rfl

theorem selectMethod_eq (generic : String) (classes : List String) (env : EnvId)
    (definitionEnv : Option EnvId) :
    selectMethod trap ev generic classes env definitionEnv =
      ev.selectMethod generic classes env definitionEnv := by
  have hall (table : Option EnvId) :
      methodForClasses trap ev generic env table classes.toArray classes.zipIdx =
        ev.methodForClasses generic env table classes :=
    methodForClasses_eq trap ev generic env table [] classes
  simp only [selectMethod, methodOrDefault, hall]
  rfl

theorem useMethod_eq (generic : String) (object : Option Value) (env : EnvId) :
    useMethod trap ev generic object env = ev.useMethod generic object env := by
  have happly (object : Value) (invocation : Invocation) :
      applyMethod trap ev generic object invocation env =
        ev.applyMethod generic object invocation env := by
    simp only [applyMethod, classes_eq, reach_some, pure_bind, selectMethod_eq]
    rfl
  simp only [useMethod, happly]
  rfl

theorem operatorMethodNames_eq (op : String) (args : ArgList) :
    operatorMethodNames op args = some (Evaluator.operatorMethodNames op args) := by
  unfold operatorMethodNames
  rw [mapM_eq_some_map (f := fun arg =>
    if arg.value.hasClassAttribute then
      arg.value.classes.flatMap fun className =>
        [methodName op className, methodName "Ops" className]
    else []) fun arg _ => ?_]
  · rfl
  · simp only [classes_eq]
    split <;> rfl

theorem dispatchOperator_eq (op : String) (env : EnvId) (args : ArgList) :
    dispatchOperator trap ev op env args = ev.dispatchOperator op env args := by
  simp only [dispatchOperator, operatorMethodNames_eq, reach_some, pure_bind]
  rfl

end

/-! ## Special forms -/

section

variable (ev : Evaluator)

def assign (call : Call) (env : EnvId) : SessionM Value := do
  let (target, expr) ← twoArgs trap call .assign
  let name ← assignmentTarget trap target
  let value ← ev.evaluate expr env
  SessionM.bindIn env name value
  return value

def assignOuter (call : Call) (env : EnvId) : SessionM Value := do
  let (target, expr) ← twoArgs trap call .assignOuter
  let name ← assignmentTarget trap target
  let value ← ev.evaluate expr env
  let global := (← get).globalEnv
  let _ ← SessionM.onHeap (HeapM.assignNonLocal env name value global)
  return value

def ifElse (call : Call) (env : EnvId) : SessionM Value := do
  SessionM.requireArity call .ifElse 2 3
  let value ← ev.evaluate (← argAt trap call 0) env
  match value.condition? with
  | none =>
    SessionM.fail
      (.typeError ("argument is not interpretable as logical (got " ++ value.typeName ++ ")"))
  | some true => ev.evaluate (← argAt trap call 1) env
  | some false =>
    if call.args.length = 3 then ev.evaluate (← argAt trap call 2) env else return .null

def forLoop (call : Call) (env : EnvId) : SessionM Value := do
  SessionM.requireArity call .forLoop 3 3
  match ← argAt trap call 0 with
  | .symbol name =>
    let sequence ← ev.evaluate (← argAt trap call 1) env
    ev (.loop call env name sequence (← argAt trap call 2))
  | _ => SessionM.fail (.invalidArgument "invalid for() loop variable")

def useMethodForm (call : Call) (env : EnvId) : SessionM Value := do
  SessionM.requireArity call .useMethod 1 2
  let generic ← ev.evaluate (← argAt trap call 0) env
  let generic ← perform trap (nameArg generic "generic")
  match call.args[1]? with
  | some object => useMethod trap ev generic (some (← ev.evaluate object.value env)) env
  | none => useMethod trap ev generic none env

def runSpecial (form : SpecialForm) (call : Call) (env : EnvId) : SessionM Value :=
  match form with
  | .quote => oneArg trap call .quote
  | .function => makeFunction trap call env
  | .assign => assign trap ev call env
  | .assignEquals => assign trap ev call env
  | .assignOuter => assignOuter trap ev call env
  | .ifElse => ifElse trap ev call env
  | .forLoop => forLoop trap ev call env
  | .missing => missingForm trap call env
  | .useMethod => useMethodForm trap ev call env
  | form => ev.runSpecial form call env

theorem assign_eq (call : Call) (env : EnvId) : assign trap ev call env = ev.assign call env := by
  simp only [assign, twoArgs_eq, assignmentTarget_eq]
  rfl

theorem assignOuter_eq (call : Call) (env : EnvId) :
    assignOuter trap ev call env = ev.assignOuter call env := by
  simp only [assignOuter, twoArgs_eq, assignmentTarget_eq]
  rfl

theorem ifElse_eq (call : Call) (env : EnvId) : ifElse trap ev call env = ev.ifElse call env := by
  obtain ⟨identity, function, args⟩ := call
  match args with
  | [] | [_] | [_, _] | [_, _, _] => rfl
  | _ :: _ :: _ :: _ :: rest =>
    rw [ifElse, requireArity_of_lt .ifElse (by simp), fail_bind, Evaluator.ifElse,
      requireArity_of_lt .ifElse (by simp), fail_bind]

theorem forLoop_eq (call : Call) (env : EnvId) :
    forLoop trap ev call env = ev.forLoop call env := by
  obtain ⟨identity, function, args⟩ := call
  match args with
  | [] | [_] | [_, _] => rfl
  -- only a symbol may count, and then the other two arguments are read
  | [⟨_, counter⟩, _, _] => cases counter <;> rfl
  | _ :: _ :: _ :: _ :: rest =>
    rw [forLoop, requireArity_of_lt .forLoop (by simp), fail_bind]
    rfl

theorem useMethodForm_eq (call : Call) (env : EnvId) :
    useMethodForm trap ev call env = ev.useMethodForm call env := by
  unfold useMethodForm Evaluator.useMethodForm
  simp only [nameArg_eq, perform_ends, useMethod_eq]
  obtain ⟨identity, function, args⟩ := call
  match args with
  | [] | [_] | [_, _] => rfl
  | _ :: _ :: _ :: rest => rw [requireArity_of_lt .useMethod (by simp), fail_bind, fail_bind]

theorem runSpecial_eq (form : SpecialForm) (call : Call) (env : EnvId) :
    runSpecial trap ev form call env = ev.runSpecial form call env := by
  cases form with
  | quote => exact oneArg_eq trap call .quote
  | function => exact makeFunction_eq trap call env
  | assign => exact assign_eq trap ev call env
  | assignEquals => exact assign_eq trap ev call env
  | assignOuter => exact assignOuter_eq trap ev call env
  | ifElse => exact ifElse_eq trap ev call env
  | forLoop => exact forLoop_eq trap ev call env
  | missing => exact missingForm_eq trap call env
  | useMethod => exact useMethodForm_eq trap ev call env
  | _ => rfl

end

end CallByNeed.Positional
