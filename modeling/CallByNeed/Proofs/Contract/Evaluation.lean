import CallByNeed.Proofs.Contract.Actions

/-!
# Evaluation keeps every contract

Two evaluators that carry out every task alike in sessions with the invariant
are given to each rule of evaluation in turn; the rule then does the same with
both of them and keeps the contract.
-/

namespace CallByNeed.Contract

variable {C : Contract} {ev₁ ev₂ : Evaluator} (h : C.AgreeAll ev₁ ev₂)
include h

/-! ## Promises and functions by name -/

theorem agree_evaluate (expr : Value) (env : EnvId) :
    C.Agree (ev₁.evaluate expr env) (ev₂.evaluate expr env) := h (.evaluate expr env)

/-- Forcing a promise: it is marked while its expression is evaluated. -/
theorem agree_demand (id : PromiseId) : C.Agree (ev₁.demand id) (ev₂.demand id) := by
  intro s hinv
  -- the promise has its value, waits for it, or is under evaluation (or not there)
  by_cases hkept : ∃ expr value, s.promises.get? id = some ⟨expr, .kept value⟩
  · obtain ⟨expr, value, hp⟩ := hkept
    exact .of_run (ev₁.demand_run_kept hp) (ev₂.demand_run_kept hp) (C.refl s)
      fun _ h => nomatch h
  by_cases hwaiting : ∃ expr env, s.promises.get? id = some ⟨expr, .waiting env false⟩
  · obtain ⟨expr, env, hp⟩ := hwaiting
    obtain ⟨hsame, hrel, hraises⟩ := agree_evaluate h expr env _ (C.inv_mark hinv hp)
    have hrun₁ := ev₁.demand_run_waiting hp
    have hrun₂ := ev₂.demand_run_waiting hp
    cases hy : ev₂.evaluate expr env (s.mark id true) with
    | mk outcome t =>
      rw [hy] at hsame hrun₂ hrel hraises
      cases outcome with
      | ok value =>
        have hx := hsame.resolve_right fun h => nomatch h.2
        rw [hx] at hrun₁
        have hgives := h.gives (C.inv_mark hinv hp) hx
        exact .of_run hrun₁ hrun₂ (C.keep value hinv hp hgives hrel) fun _ h => nomatch h
      | error e =>
        have hunmark := C.unmark hinv hp hrel
        rcases hsame with hx | ⟨hlenient, he⟩
        · rw [hx] at hrun₁
          refine .of_run hrun₁ hrun₂ hunmark fun _ h => ?_
          cases h
          exact C.raises_unmark hinv hp (hraises e rfl)
        · cases he
          exact .of_exhausted hinv hlenient hrun₂ hunmark
  · have hkept' (expr value) : s.promises.get? id ≠ some ⟨expr, .kept value⟩ :=
      fun hp => hkept ⟨expr, value, hp⟩
    have hwaiting' (expr env) : s.promises.get? id ≠ some ⟨expr, .waiting env false⟩ :=
      fun hp => hwaiting ⟨expr, env, hp⟩
    exact .of_run (ev₁.demand_run_recursive hkept' hwaiting')
      (ev₂.demand_run_recursive hkept' hwaiting') (C.refl s)
      fun _ h => by cases h; exact C.raises_failure hinv rfl

theorem agree_force (value : Value) : C.Agree (ev₁.force value) (ev₂.force value) := by
  cases value with
  | promise id => exact agree_demand h id
  | _ => exact keeps_pure _

theorem agree_lookup (env : EnvId) (name : Symbol) :
    C.Agree (ev₁.lookup env name) (ev₂.lookup env name) :=
  (keeps_askHeap fun heap => heap.overflowless_lookup env name).bind fun value =>
    agree_force h value

theorem agree_functionWithin (name : Symbol) (fuel : Nat) (start : Option EnvId) :
    C.Agree (ev₁.functionWithin name fuel start) (ev₂.functionWithin name fuel start) := by
  induction fuel generalizing start with
  | zero =>
    cases start with
    | none => exact keeps_pure _
    | some id => exact keeps_exhausted
  | succ fuel ih =>
    cases start with
    | none => exact keeps_pure _
    | some id =>
      refine (keeps_askHeap fun heap => heap.overflowless_frame id).bind fun frame => ?_
      split
      · exact (agree_force h _).bind fun value => .ite (keeps_pure _) (ih _)
      · exact ih _

theorem agree_function? (env : EnvId) (name : Symbol) :
    C.Agree (ev₁.function? env name) (ev₂.function? env name) :=
  keeps_get.bind fun _ => agree_functionWithin h name _ _

theorem agree_requireFunction (env : EnvId) (name : Symbol) :
    C.Agree (ev₁.requireFunction env name) (ev₂.requireFunction env name) := by
  refine (agree_function? h env name).bind fun found => ?_
  cases found with
  | some function => exact keeps_pure _
  | none => exact keeps_fail rfl

/-! ## Arguments -/

theorem agree_forceArg (arg : Arg Value) : C.Agree (ev₁.forceArg arg) (ev₂.forceArg arg) :=
  .ite (keeps_pure _) ((agree_force h _).bind fun _ => keeps_pure _)

theorem agree_argValues (args : ArgList) (env : EnvId) :
    C.Agree (ev₁.argValues args env) (ev₂.argValues args env) := by
  induction args with
  | nil => exact keeps_pure _
  | cons arg rest ih =>
    have hrest (evaluated : ArgList) : C.Agree
        (do return evaluated ++ (← ev₁.argValues rest env))
        (do return evaluated ++ (← ev₂.argValues rest env)) :=
      ih.bind fun _ => keeps_pure _
    refine .ite ?_ (.ite ?_ ?_)
    · exact (keeps_ellipsisArgs env).bind fun _ => .bind (.mapM (agree_forceArg h)) hrest
    · exact .bind (keeps_pure _) hrest
    · exact (agree_evaluate h _ _).bind fun _ => .bind (keeps_pure _) hrest

/-! ## Invocations -/

omit h in
/-- An action inside an invocation runs only if there are not too many already. -/
theorem AgreeAt.withInvocation {α : Type} {s : Session} (i : Invocation) {x y : SessionM α}
    (hinv : C.inv s) (hspares : y.Spares i.env)
    (h : s.depth < s.options.maxCallDepth → C.AgreeAt (s.enter i) x y) :
    C.AgreeAt s (SessionM.withInvocation i x) (SessionM.withInvocation i y) := by
  by_cases hdepth : s.options.maxCallDepth ≤ s.depth
  · have hrun (act : SessionM α) : SessionM.withInvocation i act s =
        (.error (.failure (.stackOverflow s.depth)), s) :=
      SessionM.withInvocation_run_full i act hdepth
    exact .of_run (hrun x) (hrun y) (C.refl s) fun _ h => by
      cases h
      exact C.raises_overflow hinv hdepth
  · have hlt : s.depth < s.options.maxCallDepth := by omega
    obtain ⟨hsame, hrel, hraises⟩ := h hlt
    have hrun₁ := SessionM.withInvocation_run i x hlt
    have hrun₂ := SessionM.withInvocation_run i y hlt
    have hleave := C.leave i hinv hlt hrel
    -- the invocation is left on every outcome, and no outcome is a return from itself
    rcases hsame with hx | ⟨hlenient, he⟩
    · rw [hx] at hrun₁
      refine .of_run hrun₁ hrun₂ hleave fun e he => C.raises_leave i hinv hlt ?_ (hraises e he)
      exact fun value hown => hspares (s.enter i) value (by rw [he, hown])
    · rw [he] at hrun₂
      exact .of_exhausted hinv hlenient hrun₂ hleave

omit h in
theorem Agree.catchReturn (env : EnvId) {x y : SessionM Value} (h : C.Agree x y) :
    C.Agree (SessionM.catchReturn env x) (SessionM.catchReturn env y) := by
  intro s hinv
  obtain ⟨hsame, hrel, hraises⟩ := h s hinv
  cases hy : y s with
  | mk outcome t =>
    rw [hy] at hsame hrel hraises
    -- only a return that aims at `env` is caught, and being out of fuel is none
    by_cases hcaught : ∃ value, outcome = .error (.returning env value)
    · obtain ⟨value, rfl⟩ := hcaught
      have hx := hsame.resolve_right fun h => nomatch h.2
      exact .of_run (SessionM.catchReturn_run_caught hx) (SessionM.catchReturn_run_caught hy) hrel
        fun _ h => nomatch h
    · have hpassed {z : SessionM Value} (hz : z s = (outcome, t)) :=
        SessionM.catchReturn_run_passed hz fun value he => hcaught ⟨value, he⟩
      rcases hsame with hx | ⟨hlenient, he⟩
      · exact .of_run (hpassed hx) (hpassed hy) hrel hraises
      · cases he
        exact .of_exhausted hinv hlenient (hpassed hy) hrel

theorem agree_invoke (closure : Closure) (callerEnv : EnvId) (call : Call) (args : ArgList)
    (extra : List (Symbol × Value)) :
    C.Agree (ev₁.invoke closure callerEnv call args extra)
      (ev₂.invoke closure callerEnv call args extra) := by
  intro s hinv
  refine AgreeAt.bind hinv (keeps_allocate _ s hinv) fun env t hrun _ ht => ?_
  obtain ⟨rfl, rfl⟩ : (s.heap.allocate (some closure.env)).1 = env ∧
      { s with heap := (s.heap.allocate (some closure.env)).2 } = t := by
    cases hrun
    exact ⟨rfl, rfl⟩
  refine AgreeAt.withInvocation _ ht (SessionM.spares_invocation _ _ _ _ _) fun hroom => ?_
  refine Agree.bind (keeps_bindArguments _ _ _) (fun _ => ?_) _ (C.inv_enter _ _ hinv rfl hroom)
  exact Agree.bind (.forM fun (name, value) => keeps_bindIn _ name value) fun _ =>
    .catchReturn _ (agree_evaluate h _ _)

/-! ## Methods -/

theorem agree_genericEnv (generic : String) (env : EnvId) :
    C.Agree (ev₁.genericEnv generic env) (ev₂.genericEnv generic env) := by
  refine keeps_get.bind fun s => .ite (keeps_pure _) ?_
  refine (agree_function? h _ _).bind fun found => ?_
  split
  · exact keeps_pure _
  · exact keeps_pure _
  · exact keeps_pure _
  · exact keeps_fail rfl

theorem agree_methodOf (method : Value) (env : EnvId) :
    C.Agree (ev₁.methodOf method env) (ev₂.methodOf method env) := by
  refine .ite (keeps_pure _) ?_
  split
  · exact agree_requireFunction h _ _
  · exact keeps_fail rfl

theorem agree_registerMethodFrom (generic className : String) (method : Value) (env : EnvId) :
    C.Agree (ev₁.registerMethodFrom generic className method env)
      (ev₂.registerMethodFrom generic className method env) := by
  refine (agree_genericEnv h generic env).bind fun definitionEnv => ?_
  cases definitionEnv with
  | none => exact keeps_fail rfl
  | some definitionEnv =>
    exact (agree_methodOf h method env).bind fun _ => keeps_registerMethod _ _ _ _

theorem agree_method? (name : Symbol) (env : EnvId) (table : Option EnvId) :
    C.Agree (ev₁.method? name env table) (ev₂.method? name env table) := by
  refine (agree_function? h env name).bind fun found => ?_
  split
  · exact keeps_pure _
  · exact keeps_pure _
  · refine (keeps_askHeap fun heap => heap.overflowless_getLocal _ _).bind fun registered => ?_
    cases registered with
    | none => exact keeps_pure _
    | some value => exact (agree_force h value).bind fun _ => keeps_pure _

theorem agree_methodForClasses (generic : String) (env : EnvId) (table : Option EnvId)
    (classes : List String) :
    C.Agree (ev₁.methodForClasses generic env table classes)
      (ev₂.methodForClasses generic env table classes) := by
  induction classes with
  | nil => exact keeps_pure _
  | cons className rest ih =>
    refine (agree_method? h _ _ _).bind fun found => ?_
    cases found with
    | some method => exact keeps_pure _
    | none => exact ih

theorem agree_methodOrDefault (generic : String) (classes : List String) (env : EnvId)
    (table : Option EnvId) :
    C.Agree (ev₁.methodOrDefault generic classes env table)
      (ev₂.methodOrDefault generic classes env table) := by
  refine (agree_methodForClasses h _ _ _ _).bind fun found => ?_
  cases found with
  | some selected => exact keeps_pure _
  | none => exact (agree_method? h _ _ _).bind fun _ => keeps_pure _

theorem agree_selectMethod (generic : String) (classes : List String) (env : EnvId)
    (definitionEnv : Option EnvId) :
    C.Agree (ev₁.selectMethod generic classes env definitionEnv)
      (ev₂.selectMethod generic classes env definitionEnv) := by
  cases definitionEnv with
  | some definitionEnv =>
    exact (keeps_methodsTable _).bind fun _ => agree_methodOrDefault h _ _ _ _
  | none => exact agree_methodOrDefault h _ _ _ _

theorem agree_receiver (formals : ArgList) (env : EnvId) :
    C.Agree (ev₁.receiver formals env) (ev₂.receiver formals env) := by
  unfold Evaluator.receiver
  split
  · exact keeps_pure _
  · refine (keeps_askHeap fun heap => heap.overflowless_getLocal _ _).bind fun found => ?_
    split
    · exact keeps_pure _
    · refine .ite ?_ (.ite (keeps_fail rfl) (agree_force h _))
      split
      · exact agree_force h _
      · exact keeps_pure _

theorem agree_firstMethod (env : EnvId) (table : Option EnvId) (names : List Symbol) :
    C.Agree (ev₁.firstMethod env table names) (ev₂.firstMethod env table names) := by
  induction names with
  | nil => exact keeps_pure _
  | cons name rest ih =>
    refine (agree_method? h _ _ _).bind fun found => ?_
    cases found with
    | some method => exact keeps_pure _
    | none => exact ih

theorem agree_dispatchOperator (op : String) (env : EnvId) (args : ArgList) :
    C.Agree (ev₁.dispatchOperator op env args) (ev₂.dispatchOperator op env args) := by
  refine keeps_get.bind fun s => (keeps_methodsTable _).bind fun table => ?_
  refine (agree_firstMethod h _ _ _).bind fun found => ?_
  cases found with
  | none => exact keeps_pure _
  | some method =>
    refine Agree.bind (.mapM fun _ => (keeps_newKept _ _).bind fun _ => keeps_pure _)
      fun promised => ?_
    refine (keeps_newCall _ _).bind fun call => (keeps_newVector _ _).bind fun generic => ?_
    exact (h _).bind fun _ => keeps_pure _

omit h in
theorem keeps_classesValue (classes : List String) : C.Keeps (Evaluator.classesValue classes) :=
  .ite (keeps_pure _) (keeps_newVector _ _)

/-- A method returns from the invocation that selected it, which was active all the time. -/
theorem agree_applyMethod {s : Session} (hinv : C.inv s) (generic : String) (object : Value)
    (invocation : Invocation) {env : EnvId} (hactive : (s.invocationOf? env).isSome) :
    C.AgreeFrom s (ev₁.applyMethod generic object invocation env)
      (ev₂.applyMethod generic object invocation env) := by
  refine ((agree_genericEnv h _ _).from hinv).bind hinv fun definitionEnv => ?_
  refine ((agree_selectMethod h _ _ _ _).from hinv).bind hinv fun found => ?_
  cases found with
  | none => exact (keeps_fail rfl).from hinv
  | some selected =>
    refine ((keeps_newVector _ _).from hinv).bind hinv fun _ => ?_
    refine ((keeps_classesValue _).from hinv).bind hinv fun _ => ?_
    exact ((h _).from hinv).bind hinv fun value => returning_from hinv hactive value

theorem agree_useMethod (generic : String) (object : Option Value) (env : EnvId) :
    C.Agree (ev₁.useMethod generic object env) (ev₂.useMethod generic object env) := by
  intro s hinv
  refine AgreeAt.bind hinv (keeps_get s hinv) fun s' t hget _ _ => ?_
  -- the session that is read is `s` itself, so an invocation found in it is active from here on
  obtain ⟨rfl, rfl⟩ : s = s' ∧ s = t := by cases hget; exact ⟨rfl, rfl⟩
  cases hfound : s.invocationOf? env with
  | none => exact keeps_fail rfl s hinv
  | some invocation =>
    have hactive : (s.invocationOf? env).isSome := by rw [hfound]; rfl
    cases object with
    | some object => exact agree_applyMethod h hinv _ _ _ hactive s (C.refl s)
    | none =>
      refine AgreeFrom.bind hinv ((agree_receiver h _ _).from hinv) (fun object => ?_) s (C.refl s)
      exact agree_applyMethod h hinv _ _ _ hactive

/-! ## Special forms -/

theorem agree_evaluateBlock (env : EnvId) (args : ArgList) (last : Value) :
    C.Agree (ev₁.evaluateBlock env args last) (ev₂.evaluateBlock env args last) := by
  induction args generalizing last with
  | nil => exact keeps_pure _
  | cons arg rest ih => exact (agree_evaluate h _ _).bind fun value => ih value

theorem agree_assign (call : Call) (env : EnvId) :
    C.Agree (ev₁.assign call env) (ev₂.assign call env) := by
  refine (keeps_twoArgs call .assign).bind fun (target, expr) => ?_
  exact (keeps_assignmentTarget target).bind fun name => (agree_evaluate h expr env).bind
    fun value => (keeps_bindIn _ _ _).bind fun _ => keeps_pure _

theorem agree_assignOuter (call : Call) (env : EnvId) :
    C.Agree (ev₁.assignOuter call env) (ev₂.assignOuter call env) := by
  refine (keeps_twoArgs call .assignOuter).bind fun (target, expr) => ?_
  exact (keeps_assignmentTarget target).bind fun name => (agree_evaluate h expr env).bind
    fun value => keeps_get.bind fun _ => (keeps_assignNonLocal _ _ _ _).bind
      fun _ => keeps_pure _

theorem agree_ifElse (call : Call) (env : EnvId) :
    C.Agree (ev₁.ifElse call env) (ev₂.ifElse call env) := by
  refine (keeps_requireArity _ _ _ _).bind fun _ => ?_
  split
  · refine (agree_evaluate h _ _).bind fun value => ?_
    split
    · exact keeps_fail rfl
    · exact agree_evaluate h _ _
    · split
      · exact keeps_pure _
      · exact agree_evaluate h _ _
  · exact keeps_pure _

theorem agree_forLoop (call : Call) (env : EnvId) :
    C.Agree (ev₁.forLoop call env) (ev₂.forLoop call env) := by
  unfold Evaluator.forLoop
  split
  · split
    · exact (agree_evaluate h _ _).bind fun sequence => h _
    · exact keeps_fail rfl
  · exact keeps_fail rfl

theorem agree_evaluateFirst (args : ArgList) (env : EnvId) :
    C.Agree (ev₁.evaluateFirst args env) (ev₂.evaluateFirst args env) := by
  cases args with
  | nil => exact keeps_pure _
  | cons arg _ => exact agree_evaluate h _ _

theorem agree_returnValue (call : Call) (env : EnvId) :
    C.Agree (ev₁.returnValue call env) (ev₂.returnValue call env) := by
  refine (keeps_requireArity _ _ _ _).bind fun _ => ?_
  refine (agree_evaluateFirst h _ _).bind fun value => ?_
  intro s hinv
  refine AgreeAt.bind hinv (keeps_get s hinv) fun s' t hget _ _ => ?_
  obtain ⟨rfl, rfl⟩ : s = s' ∧ s = t := by cases hget; exact ⟨rfl, rfl⟩
  split
  · rename_i hactive
    exact returning_from hinv hactive value s (C.refl s)
  · exact keeps_fail rfl s hinv

theorem agree_useMethodForm (call : Call) (env : EnvId) :
    C.Agree (ev₁.useMethodForm call env) (ev₂.useMethodForm call env) := by
  refine (keeps_requireArity _ _ _ _).bind fun _ => ?_
  refine (agree_evaluateFirst h _ _).bind fun generic => ?_
  refine (keeps_ofExcept (plain_nameArg _ _)).bind fun generic => ?_
  split
  · exact (agree_evaluate h _ _).bind fun object => agree_useMethod h _ _ _
  · exact agree_useMethod h _ _ _

theorem agree_runSpecial (form : SpecialForm) (call : Call) (env : EnvId) :
    C.Agree (ev₁.runSpecial form call env) (ev₂.runSpecial form call env) := by
  cases form with
  | quote => exact keeps_oneArg _ _
  | function => exact keeps_makeFunction _ _
  | assign => exact agree_assign h _ _
  | assignEquals => exact agree_assign h _ _
  | assignOuter => exact agree_assignOuter h _ _
  | block => exact agree_evaluateBlock h _ _ _
  | ifElse => exact agree_ifElse h _ _
  | forLoop => exact agree_forLoop h _ _
  | returnValue => exact agree_returnValue h _ _
  | missing => exact keeps_missingForm _ _
  | useMethod => exact agree_useMethodForm h _ _
  | receivedCall => exact keeps_pure _

/-! ## Builtins -/

/-- What the builtin that registers methods does with its matched arguments, where `envir` is the
    last of them. -/
def registration (register : String → String → Value → EnvId → SessionM Unit)
    (values : List Value) (envir : Value) (env : EnvId) : SessionM Value := do
  let builtin := NamespaceQuery.registerMethod.name
  let generic ← SessionM.ofExcept (requireArg builtin values 0)
  let generic ← SessionM.ofExcept (nameArg generic "genname")
  let className ← SessionM.ofExcept (requireArg builtin values 1)
  let className ← SessionM.ofExcept (nameArg className "class")
  let method ← SessionM.ofExcept (requireArg builtin values 2)
  let env ← SessionM.ofExcept (environmentOr env envir)
  register generic className method env
  return .null

omit h in
theorem agree_registration {f g : String → String → Value → EnvId → SessionM Unit}
    (hfg : ∀ generic className method env,
      C.Agree (f generic className method env) (g generic className method env))
    (values : List Value) (envir : Value) (env : EnvId) :
    C.Agree (registration f values envir env) (registration g values envir env) := by
  refine (keeps_ofExcept (plain_requireArg _ _ _)).bind fun generic => ?_
  refine (keeps_ofExcept (plain_nameArg _ _)).bind fun generic => ?_
  refine (keeps_ofExcept (plain_requireArg _ _ _)).bind fun className => ?_
  refine (keeps_ofExcept (plain_nameArg _ _)).bind fun className => ?_
  refine (keeps_ofExcept (plain_requireArg _ _ _)).bind fun method => ?_
  refine (keeps_ofExcept (plain_environmentOr _ _)).bind fun env => ?_
  exact (hfg generic className method env).bind fun _ => keeps_pure _

theorem agree_registerMethodBuiltin (args : ArgList) (env : EnvId) :
    C.Agree (ev₁.registerMethodBuiltin args env) (ev₂.registerMethodBuiltin args env) :=
  (keeps_ofExcept (plain_argsByName _ _)).bind fun values =>
    agree_registration (agree_registerMethodFrom h) values _ env

theorem agree_runNamespaceQuery (query : NamespaceQuery) (args : ArgList) (env : EnvId) :
    C.Agree (ev₁.runNamespaceQuery query args env) (ev₂.runNamespaceQuery query args env) := by
  have honly (formal : String) : C.Keeps (do
      let values ← SessionM.ofExcept (argsByName args [formal])
      SessionM.ofExcept (requireArg query.name values 0)) :=
    (keeps_ofExcept (plain_argsByName _ _)).bind fun _ =>
      keeps_ofExcept (plain_requireArg _ _ _)
  cases query with
  | registerMethod => exact agree_registerMethodBuiltin h _ _
  | load =>
    exact (honly "name").bind fun _ => (keeps_ofExcept (plain_nameArg _ _)).bind fun _ =>
      (keeps_loadNamespace _).bind fun _ => keeps_pure _
  | isNamespace =>
    refine (honly "ns").bind fun value => ?_
    split
    · exact keeps_get.bind fun _ => keeps_newVector _ _
    · exact keeps_newVector _ _
  | loaded => exact keeps_get.bind fun _ => keeps_newVector _ _
  | nameOf =>
    exact (honly "ns").bind fun _ => (keeps_namespaceOf _).bind fun _ => keeps_namespaceName _
  | exportsOf =>
    exact (honly "ns").bind fun _ => (keeps_namespaceOf _).bind fun _ => keeps_newVector _ _
  | importsOf =>
    exact (honly "ns").bind fun _ => (keeps_namespaceOf _).bind fun _ => keeps_get.bind fun _ =>
      (keeps_ofExcept (plain_imports _ _)).bind fun _ => keeps_pure _
  | lookUp =>
    refine (honly "name").bind fun _ => (keeps_ofExcept (plain_nameArg _ _)).bind
      fun _ => keeps_get.bind fun _ => ?_
    split <;> exact keeps_pure _

theorem agree_runArithmetic (op : BinaryOp) (args : ArgList) (env : EnvId) :
    C.Agree (ev₁.runArithmetic op args env) (ev₂.runArithmetic op args env) := by
  refine (agree_dispatchOperator h _ _ _).bind fun found => ?_
  cases found with
  | some value => exact keeps_pure _
  | none => exact keeps_deliver (Builtin.plain_arithmetic _ _)

theorem agree_runEager (builtin : EagerBuiltin) (args : ArgList) (env : EnvId) :
    C.Agree (ev₁.runEager builtin args env) (ev₂.runEager builtin args env) := by
  cases builtin with
  | arithmetic op => exact agree_runArithmetic h _ _ _
  | compare op => exact keeps_deliver (Builtin.plain_compare _ _)
  | sequence => exact keeps_deliver (Builtin.plain_sequence _)
  | combine => exact keeps_deliver (Builtin.plain_combine _)
  | length => exact keeps_deliver (Builtin.plain_length _)
  | math f => exact keeps_deliver (Builtin.plain_math _ _)
  | reduce op => exact keeps_deliver (Builtin.plain_reduce _ _)
  | margin op => exact keeps_deliver (Builtin.plain_margin _ _)
  | withAttributes => exact keeps_deliver (Builtin.plain_withAttributes _)
  | attributeOf => exact keeps_deliver (Builtin.plain_attributeOf _)
  | classOf => exact keeps_deliver (Builtin.plain_classOf _)
  | environmentOf => exact keeps_deliver (Builtin.plain_environmentOf _ _)
  | namespaces query => exact agree_runNamespaceQuery h _ _ _
  | introspect query => exact keeps_introspect _ _ _

/-! ## Expressions -/

theorem agree_evaluateSymbol (name : Symbol) (env : EnvId) :
    C.Agree (ev₁.evaluateSymbol name env) (ev₂.evaluateSymbol name env) := by
  refine .ite (keeps_fail rfl) (.ite (keeps_fail rfl) ?_)
  refine (keeps_askHeap fun heap => heap.overflowless_lookup env name).bind fun value => ?_
  split
  · exact keeps_fail rfl
  · exact (agree_force h _).bind fun _ => .ite (keeps_fail rfl) (keeps_pure _)

theorem agree_functionOf (call : Call) (env : EnvId) :
    C.Agree (ev₁.functionOf call env) (ev₂.functionOf call env) := by
  unfold Evaluator.functionOf
  split
  · exact agree_requireFunction h _ _
  · exact agree_evaluate h _ _

theorem agree_evaluateCall (call : Call) (env : EnvId) :
    C.Agree (ev₁.evaluateCall call env) (ev₂.evaluateCall call env) := by
  refine (agree_functionOf h call env).bind fun function => ?_
  split
  · exact (keeps_suspendArgs _ _).bind fun _ => agree_invoke h _ _ _ _ _
  · exact agree_runSpecial h _ _ _
  · exact (agree_argValues h _ _).bind fun _ => agree_runEager h _ _ _
  · exact keeps_fail rfl

theorem agree_evaluateExpr (expr : Value) (env : EnvId) :
    C.Agree (ev₁.evaluateExpr expr env) (ev₂.evaluateExpr expr env) := by
  unfold Evaluator.evaluateExpr
  split
  · exact agree_evaluateSymbol h _ _
  · exact agree_evaluateCall h _ _
  · exact agree_demand h _
  · exact keeps_fail rfl
  · exact keeps_pure _

theorem agree_applyValue (function : Value) (call : Call) (args : ArgList) (env : EnvId)
    (extra : List (Symbol × Value)) :
    C.Agree (ev₁.applyValue function call args env extra)
      (ev₂.applyValue function call args env extra) := by
  unfold Evaluator.applyValue
  split
  · exact agree_invoke h _ _ _ _ _
  · exact agree_runSpecial h _ _ _
  · exact Agree.bind (.mapM (agree_forceArg h)) fun _ => agree_runEager h _ _ _
  · exact keeps_fail rfl

end CallByNeed.Contract
