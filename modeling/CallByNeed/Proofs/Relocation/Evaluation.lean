import CallByNeed.Evaluator
import CallByNeed.Proofs.Relocation.Arguments

/-!
# Evaluation in a relocated session

If an evaluator carries over, then so does every rule of evaluation that hands its
tasks to it.  The loops have a module of their own.
-/

namespace CallByNeed

instance : Renames Task where
  rename r
    | .evaluate expr env => .evaluate (rename r expr) (rename r env)
    | .apply function call args env extra =>
      .apply (rename r function) (rename r call) (rename r args) (rename r env) (rename r extra)
    | .loop call env var sequence body =>
      .loop (rename r call) (rename r env) var (rename r sequence) (rename r body)

instance : Renames SelectedMethod where
  rename r selected := { selected with method := rename r selected.method }

namespace Relocation

open Renaming

/-- Every task carries over. -/
def CarriesAll (ρ : Relocation) (ev : Evaluator) : Prop :=
  ∀ task, ρ.Carries ρ.move (ev task) (ev (ρ.move task))

namespace CarriesAll

open Carries

variable {ρ : Relocation} {ev : Evaluator} (hev : ρ.CarriesAll ev)
include hev

theorem evaluate (expr : Value) (env : EnvId) :
    ρ.Carries ρ.move (ev.evaluate expr env) (ev.evaluate (ρ.move expr) env) :=
  hev (.evaluate expr env)

/-! ## Promises and functions -/

theorem demand (p : PromiseId) :
    ρ.Carries ρ.move (ev.demand p) (ev.demand (ρ.promise p)) := by
  refine get_bind_of fun s => ?_
  have hget (hs : ρ.Covers s.promises) :
      (ρ.session s).promises.get? (ρ.promise p) = ρ.move (s.promises.get? p) := ρ.get? hs p
  rcases hp : s.promises.get? p with _ | ⟨expr, ⟨env, _ | _⟩ | value⟩
  · exact ⟨_, fail _, fun hs => by rw [hget hs, hp]; rfl⟩
  · refine ⟨do
      let value ← Evaluator.whileEvaluating (ρ.promise p) (ev.evaluate (ρ.move expr) env)
      SessionM.updatePromise (ρ.promise p) (Promise.keep value)
      return value, ?_, fun hs => by rw [hget hs, hp]; rfl⟩
    refine (whileEvaluating p (hev.evaluate expr env)).bind fun value => ?_
    have hkeep : ρ.Carries id (SessionM.updatePromise p (Promise.keep value))
        (SessionM.updatePromise (ρ.promise p) (Promise.keep (ρ.move value))) :=
      updatePromise p fun _ => rfl
    exact hkeep.bind fun _ => pure rfl
  · exact ⟨_, fail _, fun hs => by rw [hget hs, hp]; rfl⟩
  · exact ⟨_, pure rfl, fun hs => by rw [hget hs, hp]; rfl⟩

theorem force (value : Value) : ρ.Carries ρ.move (ev.force value) (ev.force (ρ.move value)) := by
  have hshape := ρ.reshaped value
  generalize hmoved : ρ.move value = value' at *
  cases hshape with
  | promise p => exact hev.demand p
  | _ => exact pure hmoved

theorem lookup (env : EnvId) (name : Symbol) :
    ρ.Carries ρ.move (ev.lookup env name) (ev.lookup env name) :=
  bind (f := ρ.move) (askHeap fun h => lookup_move h env name) hev.force

theorem functionWithin (name : Symbol) (fuel : Nat) (start : Option EnvId) :
    ρ.Carries ρ.move (ev.functionWithin name fuel start) (ev.functionWithin name fuel start) := by
  induction fuel generalizing start with
  | zero =>
    cases start with
    | none => exact pure rfl
    | some id => exact exhausted
  | succ fuel ih =>
    cases start with
    | none => exact pure rfl
    | some id =>
      refine bind (f := ρ.move) (askHeap fun h => frame_move h id) fun frame => ?_
      rw [get?_move, parent_move]
      cases frame.get? name with
      | none => exact ih frame.parent
      | some binding =>
        refine (hev.force binding.value).bind fun value => ite ?_ (pure rfl) (ih frame.parent)
        rw [isFunction_rename]

theorem function? (env : EnvId) (name : Symbol) :
    ρ.Carries ρ.move (ev.function? env name) (ev.function? env name) := by
  refine get_bind fun s => ?_
  show ρ.Carries _ _ (ev.functionWithin name ((ρ.move s.heap).slots.size + 1) (some env))
  rw [size_move]
  exact hev.functionWithin name _ _

theorem requireFunction (env : EnvId) (name : Symbol) :
    ρ.Carries ρ.move (ev.requireFunction env name) (ev.requireFunction env name) := by
  refine (hev.function? env name).bind fun found => ?_
  cases found with
  | none => exact fail _
  | some function => exact pure rfl

/-! ## Arguments -/

theorem forceArg (arg : Arg Value) :
    ρ.Carries ρ.move (ev.forceArg arg) (ev.forceArg (ρ.move arg)) := by
  refine ite ?_ (pure rfl) ((hev.force arg.value).map fun _ => rfl)
  simp

theorem argValues (args : ArgList) (env : EnvId) :
    ρ.Carries ρ.move (ev.argValues args env) (ev.argValues (ρ.move args) env) := by
  induction args with
  | nil => exact pure rfl
  | cons arg rest ih =>
    have hmore (evaluated : ArgList) : ρ.Carries ρ.move
        (do return evaluated ++ (← ev.argValues rest env))
        (do return ρ.move evaluated ++ (← ev.argValues (ρ.move rest) env)) :=
      ih.map fun more => rename_append evaluated more
    refine ite (by simp) ?_ (ite (by simp) ?_ ?_)
    · exact (ellipsisArgs env).bind fun dots => (mapM hev.forceArg dots).bind hmore
    · exact bind (f := ρ.move) (pure rfl) hmore
    · exact (hev.evaluate arg.value env).bind fun value => bind (f := ρ.move) (pure rfl) hmore

theorem invoke (closure : Closure) (callerEnv : EnvId) (call : Call) (args : ArgList)
    (extra : List (Symbol × Value)) :
    ρ.Carries ρ.move (ev.invoke closure callerEnv call args extra)
      (ev.invoke (ρ.move closure) callerEnv (ρ.move call) (ρ.move args) (ρ.move extra)) := by
  refine (allocate (some closure.env)).bind fun env => ?_
  refine withInvocation ⟨env, callerEnv, closure, call, args⟩ ?_
  refine (bindArguments closure.formals args env).bind fun _ => ?_
  refine (forM (fun (name, value) => bindIn env name value) extra).bind fun _ => ?_
  exact catchReturn env (hev.evaluate closure.body env)

/-! ## Methods -/

theorem genericEnv (generic : String) (env : EnvId) :
    ρ.Carries id (ev.genericEnv generic env) (ev.genericEnv generic env) := by
  refine get_bind fun s => ite Iff.rfl (pure rfl)
    ((hev.function? env ⟨generic⟩).bind fun found => ?_)
  cases found with
  | none => exact pure rfl
  | some function =>
    have htype : (ρ.move function).typeName = function.typeName := typeName_rename
    have hshape := ρ.reshaped function
    rw [show ρ.move (some function) = some (ρ.move function) from rfl]
    generalize ρ.move function = function' at *
    cases hshape with
    | closure c => exact pure rfl
    | builtin identity b => exact pure rfl
    | _ =>
      dsimp only
      rw [htype]
      exact fail _

theorem methodOf (method : Value) (env : EnvId) :
    ρ.Carries ρ.move (ev.methodOf method env) (ev.methodOf (ρ.move method) env) := by
  refine ite (by simp) (pure rfl) ?_
  rw [singleString?_rename, typeName_rename]
  split
  · exact hev.requireFunction env _
  · exact fail _

theorem registerMethodFrom (generic className : String) (method : Value) (env : EnvId) :
    ρ.Carries id (ev.registerMethodFrom generic className method env)
      (ev.registerMethodFrom generic className (ρ.move method) env) := by
  refine (hev.genericEnv generic env).bind fun found => ?_
  cases found with
  | none => exact fail _
  | some definitionEnv =>
    exact (hev.methodOf method env).bind fun method =>
      registerMethod generic className method definitionEnv

theorem method? (name : Symbol) (env : EnvId) (table : Option EnvId) :
    ρ.Carries ρ.move (ev.method? name env table) (ev.method? name env table) := by
  refine (hev.function? env name).bind fun found => ?_
  cases found with
  | some method => exact pure rfl
  | none =>
    cases table with
    | none => exact pure rfl
    | some table =>
      refine bind (f := ρ.move) (askHeap fun h => getLocal_move h table name) fun registered => ?_
      cases registered with
      | none => exact pure rfl
      | some value =>
        refine (hev.force value).map fun value => ?_
        rw [isFunction_rename]
        split <;> rfl

theorem methodForClasses (generic : String) (env : EnvId) (table : Option EnvId)
    (classes : List String) :
    ρ.Carries ρ.move (ev.methodForClasses generic env table classes)
      (ev.methodForClasses generic env table classes) := by
  induction classes with
  | nil => exact pure rfl
  | cons className rest ih =>
    refine (hev.method? _ env table).bind fun found => ?_
    cases found with
    | none => exact ih
    | some method => exact pure rfl

theorem methodOrDefault (generic : String) (classes : List String) (env : EnvId)
    (table : Option EnvId) :
    ρ.Carries ρ.move (ev.methodOrDefault generic classes env table)
      (ev.methodOrDefault generic classes env table) := by
  refine (hev.methodForClasses generic env table classes).bind fun found => ?_
  cases found with
  | some selected => exact pure rfl
  | none =>
    refine (hev.method? _ env table).map fun found => ?_
    cases found <;> rfl

theorem selectMethod (generic : String) (classes : List String) (env : EnvId)
    (definitionEnv : Option EnvId) :
    ρ.Carries ρ.move (ev.selectMethod generic classes env definitionEnv)
      (ev.selectMethod generic classes env definitionEnv) := by
  cases definitionEnv with
  | none => exact hev.methodOrDefault generic classes env none
  | some definitionEnv =>
    exact (methodsTable definitionEnv).bind fun table =>
      hev.methodOrDefault generic classes env table

theorem receiver (formals : ArgList) (env : EnvId) :
    ρ.Carries ρ.move (ev.receiver formals env) (ev.receiver (ρ.move formals) env) := by
  have hfirst : (ρ.move formals).head?.bind (·.tag) = formals.head?.bind (·.tag) := by
    cases formals <;> rfl
  unfold Evaluator.receiver
  rw [hfirst]
  cases formals.head?.bind (·.tag) with
  | none => exact pure rfl
  | some first =>
    refine bind (f := ρ.move) (askHeap fun h => getLocal_move h env first) fun bound => ?_
    cases bound with
    | none => exact pure rfl
    | some value =>
      refine ite Iff.rfl ?_ (ite ?_ (fail _) (hev.force value))
      · have hshape := ρ.reshaped value
        generalize ρ.move value = value' at *
        cases hshape with
        | dots args =>
          cases args with
          | nil => exact pure rfl
          | cons arg rest => exact hev.force arg.value
        | _ => exact pure rfl
      · simp

omit hev in
theorem classesValue (classes : List String) :
    ρ.Carries ρ.move (Evaluator.classesValue classes) (Evaluator.classesValue classes) :=
  ite Iff.rfl (pure rfl) (newStrings classes)

theorem applyMethod (generic : String) (object : Value) (invocation : Invocation) (env : EnvId) :
    ρ.Carries ρ.move (ev.applyMethod generic object invocation env)
      (ev.applyMethod generic (ρ.move object) (ρ.move invocation) env) := by
  unfold Evaluator.applyMethod
  rw [classes_rename]
  refine (hev.genericEnv generic invocation.callerEnv).bind fun definitionEnv => ?_
  refine (hev.selectMethod generic object.classes invocation.callerEnv
    (some (definitionEnv.getD invocation.closure.env))).bind fun found => ?_
  cases found with
  | none => exact fail _
  | some selected =>
    refine (newString generic).bind fun name => (classesValue selected.classes).bind fun rest => ?_
    refine (hev (.apply selected.method invocation.call invocation.args invocation.callerEnv
      [(⟨".Generic"⟩, name), (⟨".Class"⟩, rest)])).bind fun value => ?_
    exact returning env value

theorem useMethod (generic : String) (object : Option Value) (env : EnvId) :
    ρ.Carries ρ.move (ev.useMethod generic object env)
      (ev.useMethod generic (ρ.move object) env) := by
  refine get_bind fun s => ?_
  rw [invocationOf?]
  cases s.invocationOf? env with
  | none => exact fail _
  | some invocation =>
    cases object with
    | some object => exact hev.applyMethod generic object invocation env
    | none =>
      exact (hev.receiver invocation.closure.formals env).bind fun object =>
        hev.applyMethod generic object invocation env

theorem firstMethod (env : EnvId) (table : Option EnvId) (names : List Symbol) :
    ρ.Carries ρ.move (ev.firstMethod env table names) (ev.firstMethod env table names) := by
  induction names with
  | nil => exact pure rfl
  | cons name rest ih =>
    refine (hev.method? name env table).bind fun found => ?_
    cases found with
    | none => exact ih
    | some method => exact pure rfl

theorem dispatchOperator (op : String) (env : EnvId) (args : ArgList) :
    ρ.Carries ρ.move (ev.dispatchOperator op env args)
      (ev.dispatchOperator op env (ρ.move args)) := by
  have hnames : Evaluator.operatorMethodNames op (ρ.move args) =
      Evaluator.operatorMethodNames op args := by
    show (args.map _).flatMap _ = _
    rw [List.flatMap_map]
    simp [Evaluator.operatorMethodNames]
  have hpromise (arg : Arg Value) : ρ.Carries ρ.move
      (do return Arg.new arg.tag (← SessionM.newKept arg.value arg.value))
      (do return Arg.new arg.tag (← SessionM.newKept (ρ.move arg.value) (ρ.move arg.value))) :=
    (newKept arg.value arg.value).map fun _ => rfl
  refine get_bind fun s => (methodsTable s.namespaces.baseEnv).bind fun table => ?_
  rw [hnames]
  refine (hev.firstMethod env table _).bind fun found => ?_
  cases found with
  | none => exact pure rfl
  | some method =>
    refine (mapM hpromise args).bind fun promised => ?_
    refine (newCall (.symbol ⟨op⟩) args).bind fun call => (newString op).bind fun name => ?_
    exact (hev (.apply method call promised env [(⟨".Generic"⟩, name)])).map fun _ => rfl

/-! ## Special forms -/

theorem evaluateBlock (env : EnvId) (args : ArgList) (last : Value) :
    ρ.Carries ρ.move (ev.evaluateBlock env args last)
      (ev.evaluateBlock env (ρ.move args) (ρ.move last)) := by
  induction args generalizing last with
  | nil => exact pure rfl
  | cons arg rest ih => exact (hev.evaluate arg.value env).bind ih

theorem assign (call : Call) (env : EnvId) :
    ρ.Carries ρ.move (ev.assign call env) (ev.assign (ρ.move call) env) := by
  refine (twoArgs call .assign).bind fun (target, expr) => ?_
  refine (assignmentTarget target).bind fun name => (hev.evaluate expr env).bind fun value => ?_
  exact (bindIn env name value).bind fun _ => pure rfl

theorem assignOuter (call : Call) (env : EnvId) :
    ρ.Carries ρ.move (ev.assignOuter call env) (ev.assignOuter (ρ.move call) env) := by
  refine (twoArgs call .assignOuter).bind fun (target, expr) => ?_
  refine (assignmentTarget target).bind fun name => (hev.evaluate expr env).bind fun value => ?_
  exact get_bind fun s => (assignNonLocal env name value s.globalEnv).bind fun _ => pure rfl

theorem ifElse (call : Call) (env : EnvId) :
    ρ.Carries ρ.move (ev.ifElse call env) (ev.ifElse (ρ.move call) env) := by
  refine (requireArity call .ifElse 2 3).bind fun _ => ?_
  obtain ⟨identity, function, args⟩ := call
  match args with
  | [] | [_] => exact pure rfl
  | condition :: consequence :: alternative =>
    refine (hev.evaluate condition.value env).bind fun value => ?_
    rw [condition?_rename, typeName_rename]
    match value.condition? with
    | none => exact fail _
    | some true => exact hev.evaluate consequence.value env
    | some false =>
      cases alternative with
      | nil => exact pure rfl
      | cons alternative _ => exact hev.evaluate alternative.value env

theorem forLoop (call : Call) (env : EnvId) :
    ρ.Carries ρ.move (ev.forLoop call env) (ev.forLoop (ρ.move call) env) := by
  obtain ⟨identity, function, args⟩ := call
  match args with
  | [] | [_] | [_, _] => exact fail _
  | [⟨tag, counter⟩, sequence, body] =>
    cases counter with
    | symbol name =>
      exact (hev.evaluate sequence.value env).bind fun items =>
        hev (.loop ⟨identity, function, [⟨tag, .symbol name⟩, sequence, body]⟩ env name items
          body.value)
    | _ => exact fail _
  | x :: y :: z :: w :: rest =>
    show ρ.Carries _ (SessionM.fail (arityError _ (x :: y :: z :: w :: rest).length _ _))
      (SessionM.fail (arityError _ (ρ.move (x :: y :: z :: w :: rest)).length _ _))
    rw [length_rename]
    exact fail _

theorem evaluateFirst (args : ArgList) (env : EnvId) :
    ρ.Carries ρ.move (ev.evaluateFirst args env) (ev.evaluateFirst (ρ.move args) env) := by
  cases args with
  | nil => exact pure rfl
  | cons arg _ => exact hev.evaluate arg.value env

theorem returnValue (call : Call) (env : EnvId) :
    ρ.Carries ρ.move (ev.returnValue call env) (ev.returnValue (ρ.move call) env) := by
  refine (requireArity call .returnValue 0 1).bind fun _ => ?_
  refine (hev.evaluateFirst call.args env).bind fun value => get_bind fun s => ?_
  rw [invocationOf?, isSome_rename]
  exact ite Iff.rfl (returning env value) (fail _)

theorem useMethodForm (call : Call) (env : EnvId) :
    ρ.Carries ρ.move (ev.useMethodForm call env) (ev.useMethodForm (ρ.move call) env) := by
  refine (requireArity call .useMethod 1 2).bind fun _ => ?_
  refine (hev.evaluateFirst call.args env).bind fun generic => ?_
  rw [nameArg_rename]
  refine (ofSame _).bind fun generic => ?_
  obtain ⟨identity, function, args⟩ := call
  match args with
  | [_, object] =>
    exact (hev.evaluate object.value env).bind fun object =>
      hev.useMethod generic (some object) env
  | [] | [_] | _ :: _ :: _ :: _ => exact hev.useMethod generic none env

theorem runSpecial (form : SpecialForm) (call : Call) (env : EnvId) :
    ρ.Carries ρ.move (ev.runSpecial form call env) (ev.runSpecial form (ρ.move call) env) := by
  cases form with
  | quote => exact oneArg call .quote
  | function => exact makeFunction call env
  | assign => exact hev.assign call env
  | assignEquals => exact hev.assign call env
  | assignOuter => exact hev.assignOuter call env
  | block => exact hev.evaluateBlock env call.args .null
  | ifElse => exact hev.ifElse call env
  | forLoop => exact hev.forLoop call env
  | returnValue => exact hev.returnValue call env
  | missing => exact missingForm call env
  | useMethod => exact hev.useMethodForm call env
  | receivedCall =>
    refine pure ?_
    simp [Arg.untagged]
    rfl

/-! ## Eager builtins -/

theorem registerMethodBuiltin (args : ArgList) (env : EnvId) :
    ρ.Carries ρ.move (ev.registerMethodBuiltin args env)
      (ev.registerMethodBuiltin (ρ.move args) env) := by
  refine (ofExcept (argsByName_rename args _)).bind fun values => ?_
  refine (ofExcept (requireArg_rename _ values 0)).bind fun generic => ?_
  rw [nameArg_rename]
  refine (ofSame _).bind fun generic => ?_
  refine (ofExcept (requireArg_rename _ values 1)).bind fun className => ?_
  rw [nameArg_rename]
  refine (ofSame _).bind fun className => ?_
  refine (ofExcept (requireArg_rename _ values 2)).bind fun method => ?_
  have henvir : (ρ.move values)[3]?.getD .missingArg = ρ.move (values[3]?.getD .missingArg) := by
    show (values.map _)[3]?.getD _ = _
    rw [List.getElem?_map]
    cases values[3]? <;> rfl
  have henvironment : environmentOr env ((ρ.move values)[3]?.getD .missingArg) =
      environmentOr env (values[3]?.getD .missingArg) := by
    rw [henvir]
    refine (environmentOr_rename env _).trans ?_
    cases environmentOr env (values[3]?.getD .missingArg) <;> rfl
  rw [henvironment]
  refine (ofSame _).bind fun env => ?_
  exact (hev.registerMethodFrom generic className method env).bind fun _ => pure rfl

theorem runNamespaceQuery (query : NamespaceQuery) (args : ArgList) (env : EnvId) :
    ρ.Carries ρ.move (ev.runNamespaceQuery query args env)
      (ev.runNamespaceQuery query (ρ.move args) env) := by
  have honly (formal : String) : ρ.Carries ρ.move
      (do SessionM.ofExcept (requireArg query.name
        (← SessionM.ofExcept (argsByName args [formal])) 0))
      (do SessionM.ofExcept (requireArg query.name
        (← SessionM.ofExcept (argsByName (ρ.move args) [formal])) 0)) :=
    (ofExcept (argsByName_rename args _)).bind fun values =>
      ofExcept (requireArg_rename _ values 0)
  cases query with
  | registerMethod => exact hev.registerMethodBuiltin args env
  | load =>
    refine (honly "name").bind fun value => ?_
    rw [nameArg_rename]
    exact (ofSame _).bind fun name => (loadNamespace ⟨name⟩).bind fun ns => pure rfl
  | isNamespace =>
    refine (honly "ns").bind fun value => ?_
    have hshape := ρ.reshaped value
    generalize ρ.move value = value' at *
    cases hshape with
    | environment id => exact get_bind fun s => newLogical _
    | _ => exact newLogical false
  | loaded => exact get_bind fun s => newStrings _
  | nameOf =>
    exact (honly "ns").bind fun value => (namespaceOf value).bind fun ns => namespaceName ns
  | exportsOf =>
    exact (honly "ns").bind fun value => (namespaceOf value).bind fun ns => newStrings _
  | importsOf =>
    refine (honly "ns").bind fun value => (namespaceOf value).bind fun ns => ?_
    exact get_bind fun s => (ofSame _).bind fun _ => pure rfl
  | lookUp =>
    refine (honly "name").bind fun value => ?_
    rw [nameArg_rename]
    refine (ofSame _).bind fun name => get_bind fun s => ?_
    rw [id_eq, show (ρ.session s).namespaces = s.namespaces from rfl]
    cases s.namespaces.registered? name <;> exact pure rfl

theorem runArithmetic (op : BinaryOp) (args : ArgList) (env : EnvId) :
    ρ.Carries ρ.move (ev.runArithmetic op args env) (ev.runArithmetic op (ρ.move args) env) := by
  refine (hev.dispatchOperator op.spelling env args).bind fun found => ?_
  cases found with
  | some value => exact pure rfl
  | none =>
    show ρ.Carries _ _ (SessionM.deliver (Builtin.arithmetic op (ρ.move args)))
    rw [Builtin.arithmetic_rename]
    exact deliver _

theorem runEager (builtin : EagerBuiltin) (args : ArgList) (env : EnvId) :
    ρ.Carries ρ.move (ev.runEager builtin args env) (ev.runEager builtin (ρ.move args) env) := by
  have hdeliver {answer answer' : Except EvalError Answer} (h : answer' = ρ.move answer) :
      ρ.Carries ρ.move (SessionM.deliver answer) (SessionM.deliver answer') := h ▸ deliver answer
  cases builtin with
  | arithmetic op => exact hev.runArithmetic op args env
  | compare op => exact hdeliver (Builtin.compare_rename op args)
  | sequence => exact hdeliver (Builtin.sequence_rename args)
  | combine => exact hdeliver (Builtin.combine_rename args)
  | length => exact hdeliver (Builtin.length_rename args)
  | math f => exact hdeliver (Builtin.math_rename f args)
  | reduce op => exact hdeliver (Builtin.reduce_rename op args)
  | margin op => exact hdeliver (Builtin.margin_rename op args)
  | withAttributes => exact hdeliver (Builtin.withAttributes_rename args)
  | attributeOf => exact hdeliver (Builtin.attributeOf_rename args)
  | classOf => exact hdeliver (Builtin.classOf_rename args)
  | environmentOf => exact hdeliver (Builtin.environmentOf_rename args env)
  | namespaces query => exact hev.runNamespaceQuery query args env
  | introspect query => exact introspect query args env

/-! ## Expressions -/

theorem evaluateSymbol (name : Symbol) (env : EnvId) :
    ρ.Carries ρ.move (ev.evaluateSymbol name env) (ev.evaluateSymbol name env) := by
  refine ite Iff.rfl (fail _) (ite Iff.rfl (fail _) ?_)
  refine bind (f := ρ.move) (askHeap fun h => lookup_move h env name) fun value => ?_
  have hseen : ρ.Carries ρ.move
      (do
        let value ← ev.force value
        if value.isMissingArg then SessionM.fail (.argumentMissing name) else return value)
      (do
        let value ← ev.force (ρ.move value)
        if value.isMissingArg then SessionM.fail (.argumentMissing name) else return value) :=
    (hev.force value).bind fun value => ite (by simp) (fail _) (pure rfl)
  have hshape := ρ.reshaped value
  generalize ρ.move value = value' at *
  cases hshape with
  | dots args => exact fail _
  | _ => exact hseen

theorem functionOf (call : Call) (env : EnvId) :
    ρ.Carries ρ.move (ev.functionOf call env) (ev.functionOf (ρ.move call) env) := by
  obtain ⟨identity, function, args⟩ := call
  have hevaluate := hev.evaluate function env
  rw [show ρ.move (⟨identity, function, args⟩ : Call) =
    ⟨identity, ρ.move function, ρ.move args⟩ from rfl]
  unfold Evaluator.functionOf
  dsimp only
  have hshape := ρ.reshaped function
  generalize ρ.move function = function' at *
  cases hshape with
  | symbol name => exact hev.requireFunction env name
  | _ => exact hevaluate

theorem evaluateCall (call : Call) (env : EnvId) :
    ρ.Carries ρ.move (ev.evaluateCall call env) (ev.evaluateCall (ρ.move call) env) := by
  refine (hev.functionOf call env).bind fun function => ?_
  have htype : (ρ.move function).typeName = function.typeName := typeName_rename
  have hshape := ρ.reshaped function
  generalize ρ.move function = function' at *
  cases hshape with
  | closure closure =>
    exact (suspendArgs call.args env).bind fun args => hev.invoke closure env call args []
  | builtin identity b =>
    cases b with
    | special form => exact hev.runSpecial form call env
    | eager builtin =>
      exact (hev.argValues call.args env).bind fun args => hev.runEager builtin args env
  | _ =>
    dsimp only
    rw [htype]
    exact fail _

theorem evaluateExpr (expr : Value) (env : EnvId) :
    ρ.Carries ρ.move (ev.evaluateExpr expr env) (ev.evaluateExpr (ρ.move expr) env) := by
  have hshape := ρ.reshaped expr
  generalize hmoved : ρ.move expr = expr' at *
  cases hshape with
  | symbol name => exact hev.evaluateSymbol name env
  | call call => exact hev.evaluateCall call env
  | promise p => exact hev.demand p
  | dots args => exact fail _
  | _ => exact pure hmoved

theorem applyValue (function : Value) (call : Call) (args : ArgList) (env : EnvId)
    (extra : List (Symbol × Value)) :
    ρ.Carries ρ.move (ev.applyValue function call args env extra)
      (ev.applyValue (ρ.move function) (ρ.move call) (ρ.move args) env (ρ.move extra)) := by
  have htype : (ρ.move function).typeName = function.typeName := typeName_rename
  have hshape := ρ.reshaped function
  generalize ρ.move function = function' at *
  cases hshape with
  | closure closure => exact hev.invoke closure env call args extra
  | builtin identity b =>
    cases b with
    | special form => exact hev.runSpecial form call env
    | eager builtin =>
      exact (mapM hev.forceArg args).bind fun args => hev.runEager builtin args env
  | _ =>
    unfold Evaluator.applyValue
    dsimp only
    rw [htype]
    exact fail _

end CarriesAll

end Relocation

end CallByNeed
