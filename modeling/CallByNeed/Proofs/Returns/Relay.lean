import CallByNeed.Proofs.Contract.LoopRecord
import CallByNeed.Proofs.Invocations

/-!
# Signals are relayed

What does a rule do with a signal that ends one of its tasks?  It is given two
evaluators that do the same, except that the second one runs out of fuel where the
first one ends with the signal (`Evaluator.Relays`).  Nothing handles running out
of fuel.  So if the signal makes a difference to what the rule does, the second
run ends out of fuel, and what remains to be seen is how the first one ends:
with the very same signal (`SessionM.RelaysAt`), as an invocation that catches
its own return (`Evaluator.Catches`), or as a loop that dropped the signal while
its names were resolved on trial (`Evaluator.EndsOnTrial`).
-/

namespace CallByNeed

namespace SessionM

variable {α β : Type} {signal : Interrupt} {s : Session}

/-- In this session both actions do the same, or the first one ends with the signal where the second
    one runs out of fuel. -/
def RelaysAt (signal : Interrupt) (s : Session) (x y : SessionM α) : Prop :=
  x s = y s ∨ (x s).1 = .error signal ∧ (y s).1 = .error .exhausted

def Relays (signal : Interrupt) (x y : SessionM α) : Prop := ∀ s, RelaysAt signal s x y

/-- An action that hands on no task does the same with both evaluators. -/
theorem relays_same (x : SessionM α) : Relays signal x x := fun _ => .inl rfl

theorem RelaysAt.bind {x y : SessionM α} {f g : α → SessionM β} (hx : RelaysAt signal s x y)
    (hf : ∀ a t, x s = (.ok a, t) → RelaysAt signal t (f a) (g a)) :
    RelaysAt signal s (x >>= f) (y >>= g) := by
  -- either both runs were the same so far, or both were ended by the signal already
  rcases hx with hsame | ⟨hx, hy⟩
  · rcases hrun : x s with ⟨e | a, t⟩
    · left
      rw [bind_run_error hrun, bind_run_error (hsame.symm.trans hrun)]
    · have hrest := hf a t hrun
      simp only [RelaysAt, bind_run_ok hrun, bind_run_ok (hsame.symm.trans hrun)] at hrest ⊢
      exact hrest
  · right
    rcases hxs : x s with ⟨outcome, t⟩
    rcases hys : y s with ⟨outcome', t'⟩
    rw [hxs] at hx
    rw [hys] at hy
    cases hx
    cases hy
    rw [bind_run_error hxs, bind_run_error hys]
    exact ⟨rfl, rfl⟩

/-- The same if what comes last may end in another way. -/
theorem RelaysAt.bind_or {x y : SessionM α} {f g : α → SessionM β}
    (hx : RelaysAt signal s x y) (Ends : Except Interrupt β × Session → Prop)
    (hf : ∀ a t, x s = (.ok a, t) → RelaysAt signal t (f a) (g a) ∨ Ends (f a t)) :
    RelaysAt signal s (x >>= f) (y >>= g) ∨ Ends ((x >>= f) s) := by
  rcases hrun : x s with ⟨e | a, t⟩
  · exact .inl (hx.bind fun a t hok => nomatch hok.symm.trans hrun)
  · rcases hf a t hrun with hrest | hends
    · refine .inl (hx.bind fun b u hok => ?_)
      cases hok.symm.trans hrun
      exact hrest
    · right
      rw [bind_run_ok hrun]
      exact hends

theorem Relays.bind {x y : SessionM α} {f g : α → SessionM β} (hx : Relays signal x y)
    (hf : ∀ a, Relays signal (f a) (g a)) : Relays signal (x >>= f) (y >>= g) :=
  fun s => (hx s).bind fun a t _ => hf a t

/-- What comes first hands on no task. -/
theorem Relays.after (x : SessionM α) {f g : α → SessionM β}
    (hf : ∀ a, Relays signal (f a) (g a)) : Relays signal (x >>= f) (x >>= g) :=
  (relays_same x).bind hf

/-- What comes last hands on no task. -/
theorem Relays.before {x y : SessionM α} (hx : Relays signal x y) (f : α → SessionM β) :
    Relays signal (x >>= f) (y >>= f) :=
  hx.bind fun a => relays_same (f a)

theorem Relays.ite {p : Prop} [Decidable p] {x₁ x₂ y₁ y₂ : SessionM α}
    (hpos : Relays signal x₁ y₁) (hneg : Relays signal x₂ y₂) :
    Relays signal (if p then x₁ else x₂) (if p then y₁ else y₂) := by
  split
  · exact hpos
  · exact hneg

theorem Relays.mapM {f g : α → SessionM β} {items : List α}
    (h : ∀ a, Relays signal (f a) (g a)) : Relays signal (items.mapM f) (items.mapM g) := by
  induction items with
  | nil => exact relays_same _
  | cons a rest ih =>
    rw [List.mapM_cons, List.mapM_cons]
    exact (h a).bind fun b => ih.before _

/-- Undoing a change on every outcome leaves the outcome as it is. -/
theorem Relays.bracket {x y : SessionM α} (hx : Relays signal x y)
    (enter leave : Session → Session) :
    Relays signal (bracket enter leave x) (bracket enter leave y) := by
  intro s
  rcases hx (enter s) with hsame | ⟨hx, hy⟩
  · left
    simp only [SessionM.bracket, hsame]
  · exact .inr ⟨hx, hy⟩

end SessionM

open SessionM

namespace Evaluator

/-- The second evaluator does what the first one does, or runs out of fuel where that one ends with
    the signal. -/
def Relays (signal : Interrupt) (ev₁ ev₂ : Evaluator) : Prop :=
  ∀ task, SessionM.Relays signal (ev₁ task) (ev₂ task)

variable {signal : Interrupt} {ev₁ ev₂ : Evaluator} (h : Relays signal ev₁ ev₂)
include h

/-! ## Promises and functions by name -/

theorem relays_evaluate (expr : Value) (env : EnvId) :
    SessionM.Relays signal (ev₁.evaluate expr env) (ev₂.evaluate expr env) :=
  h (.evaluate expr env)

theorem relays_whileEvaluating (id : PromiseId) (expr : Value) (env : EnvId) :
    SessionM.Relays signal (whileEvaluating id (ev₁.evaluate expr env))
      (whileEvaluating id (ev₂.evaluate expr env)) := by
  simp only [whileEvaluating]
  exact (relays_evaluate h expr env).bracket _ _

theorem relays_demand (id : PromiseId) :
    SessionM.Relays signal (ev₁.demand id) (ev₂.demand id) := by
  refine .after _ fun s => ?_
  split
  · exact relays_same _
  · exact (relays_whileEvaluating h id _ _).before _
  · exact relays_same _

theorem relays_force (value : Value) :
    SessionM.Relays signal (ev₁.force value) (ev₂.force value) := by
  cases value with
  | promise id => exact relays_demand h id
  | _ => exact relays_same _

theorem relays_functionWithin (name : Symbol) (fuel : Nat) (start : Option EnvId) :
    SessionM.Relays signal (ev₁.functionWithin name fuel start)
      (ev₂.functionWithin name fuel start) := by
  induction fuel generalizing start with
  | zero => cases start <;> exact relays_same _
  | succ fuel ih =>
    cases start with
    | none => exact relays_same _
    | some id =>
      refine .after _ fun frame => ?_
      split
      · exact (relays_force h _).bind fun value => .ite (relays_same _) (ih _)
      · exact ih _

theorem relays_function? (env : EnvId) (name : Symbol) :
    SessionM.Relays signal (ev₁.function? env name) (ev₂.function? env name) :=
  .after _ fun _ => relays_functionWithin h _ _ _

theorem relays_requireFunction (env : EnvId) (name : Symbol) :
    SessionM.Relays signal (ev₁.requireFunction env name) (ev₂.requireFunction env name) :=
  (relays_function? h env name).before _

/-! ## Arguments -/

theorem relays_forceArg (arg : Arg Value) :
    SessionM.Relays signal (ev₁.forceArg arg) (ev₂.forceArg arg) :=
  .ite (relays_same _) ((relays_force h _).before _)

theorem relays_argValues (args : ArgList) (env : EnvId) :
    SessionM.Relays signal (ev₁.argValues args env) (ev₂.argValues args env) := by
  induction args with
  | nil => exact relays_same _
  | cons arg rest ih =>
    have hrest (evaluated : ArgList) : SessionM.Relays signal
        (do return evaluated ++ (← ev₁.argValues rest env))
        (do return evaluated ++ (← ev₂.argValues rest env)) := ih.before _
    refine .ite ?_ (.ite ?_ ?_)
    · exact .after _ fun _ => SessionM.Relays.bind (.mapM (relays_forceArg h)) hrest
    · exact .after _ hrest
    · exact (relays_evaluate h _ _).bind fun _ => .after _ hrest

/-! ## Methods -/

theorem relays_genericEnv (generic : String) (env : EnvId) :
    SessionM.Relays signal (ev₁.genericEnv generic env) (ev₂.genericEnv generic env) :=
  .after _ fun _ => .ite (relays_same _) ((relays_function? h _ _).before _)

theorem relays_methodOf (method : Value) (env : EnvId) :
    SessionM.Relays signal (ev₁.methodOf method env) (ev₂.methodOf method env) := by
  refine .ite (relays_same _) ?_
  split
  · exact relays_requireFunction h _ _
  · exact relays_same _

theorem relays_registerMethodFrom (generic className : String) (method : Value) (env : EnvId) :
    SessionM.Relays signal (ev₁.registerMethodFrom generic className method env)
      (ev₂.registerMethodFrom generic className method env) := by
  refine (relays_genericEnv h _ _).bind fun definitionEnv => ?_
  cases definitionEnv with
  | none => exact relays_same _
  | some definitionEnv => exact (relays_methodOf h _ _).before _

theorem relays_method? (name : Symbol) (env : EnvId) (table : Option EnvId) :
    SessionM.Relays signal (ev₁.method? name env table) (ev₂.method? name env table) := by
  refine (relays_function? h _ _).bind fun found => ?_
  split
  · exact relays_same _
  · exact relays_same _
  · refine .after _ fun registered => ?_
    cases registered with
    | none => exact relays_same _
    | some value => exact (relays_force h _).before _

theorem relays_methodForClasses (generic : String) (env : EnvId) (table : Option EnvId)
    (classes : List String) :
    SessionM.Relays signal (ev₁.methodForClasses generic env table classes)
      (ev₂.methodForClasses generic env table classes) := by
  induction classes with
  | nil => exact relays_same _
  | cons className rest ih =>
    refine (relays_method? h _ _ _).bind fun found => ?_
    cases found with
    | some method => exact relays_same _
    | none => exact ih

theorem relays_methodOrDefault (generic : String) (classes : List String) (env : EnvId)
    (table : Option EnvId) :
    SessionM.Relays signal (ev₁.methodOrDefault generic classes env table)
      (ev₂.methodOrDefault generic classes env table) := by
  refine (relays_methodForClasses h _ _ _ _).bind fun found => ?_
  cases found with
  | some selected => exact relays_same _
  | none => exact (relays_method? h _ _ _).before _

theorem relays_selectMethod (generic : String) (classes : List String) (env : EnvId)
    (definitionEnv : Option EnvId) :
    SessionM.Relays signal (ev₁.selectMethod generic classes env definitionEnv)
      (ev₂.selectMethod generic classes env definitionEnv) := by
  cases definitionEnv with
  | some definitionEnv => exact .after _ fun _ => relays_methodOrDefault h _ _ _ _
  | none => exact relays_methodOrDefault h _ _ _ _

theorem relays_receiver (formals : ArgList) (env : EnvId) :
    SessionM.Relays signal (ev₁.receiver formals env) (ev₂.receiver formals env) := by
  unfold Evaluator.receiver
  split
  · exact relays_same _
  · refine .after _ fun found => ?_
    split
    · exact relays_same _
    · refine .ite ?_ (.ite (relays_same _) (relays_force h _))
      split
      · exact relays_force h _
      · exact relays_same _

theorem relays_firstMethod (env : EnvId) (table : Option EnvId) (names : List Symbol) :
    SessionM.Relays signal (ev₁.firstMethod env table names) (ev₂.firstMethod env table names) := by
  induction names with
  | nil => exact relays_same _
  | cons name rest ih =>
    refine (relays_method? h _ _ _).bind fun found => ?_
    cases found with
    | some method => exact relays_same _
    | none => exact ih

theorem relays_dispatchOperator (op : String) (env : EnvId) (args : ArgList) :
    SessionM.Relays signal (ev₁.dispatchOperator op env args)
      (ev₂.dispatchOperator op env args) := by
  refine .after _ fun s => .after _ fun table => (relays_firstMethod h _ _ _).bind fun found => ?_
  cases found with
  | none => exact relays_same _
  | some method =>
    exact .after _ fun promised => .after _ fun call => .after _ fun generic => (h _).before _

theorem relays_applyMethod (generic : String) (object : Value) (invocation : Invocation)
    (env : EnvId) :
    SessionM.Relays signal (ev₁.applyMethod generic object invocation env)
      (ev₂.applyMethod generic object invocation env) := by
  refine (relays_genericEnv h _ _).bind fun definitionEnv => ?_
  refine (relays_selectMethod h _ _ _ _).bind fun found => ?_
  cases found with
  | none => exact relays_same _
  | some selected => exact .after _ fun _ => .after _ fun _ => (h _).before _

theorem relays_useMethod (generic : String) (object : Option Value) (env : EnvId) :
    SessionM.Relays signal (ev₁.useMethod generic object env)
      (ev₂.useMethod generic object env) := by
  refine .after _ fun s => ?_
  split
  · exact relays_same _
  · cases object with
    | some object => exact relays_applyMethod h _ _ _ _
    | none => exact (relays_receiver h _ _).bind fun _ => relays_applyMethod h _ _ _ _

/-! ## Special forms -/

theorem relays_evaluateBlock (env : EnvId) (args : ArgList) (last : Value) :
    SessionM.Relays signal (ev₁.evaluateBlock env args last) (ev₂.evaluateBlock env args last) := by
  induction args generalizing last with
  | nil => exact relays_same _
  | cons arg rest ih => exact (relays_evaluate h _ _).bind fun value => ih value

theorem relays_assign (call : Call) (env : EnvId) :
    SessionM.Relays signal (ev₁.assign call env) (ev₂.assign call env) :=
  .after _ fun _ => .after _ fun _ => (relays_evaluate h _ _).before _

theorem relays_assignOuter (call : Call) (env : EnvId) :
    SessionM.Relays signal (ev₁.assignOuter call env) (ev₂.assignOuter call env) :=
  .after _ fun _ => .after _ fun _ => (relays_evaluate h _ _).before _

theorem relays_ifElse (call : Call) (env : EnvId) :
    SessionM.Relays signal (ev₁.ifElse call env) (ev₂.ifElse call env) := by
  refine .after _ fun _ => ?_
  split
  · refine (relays_evaluate h _ _).bind fun value => ?_
    split
    · exact relays_same _
    · exact relays_evaluate h _ _
    · split
      · exact relays_same _
      · exact relays_evaluate h _ _
  · exact relays_same _

theorem relays_forLoop (call : Call) (env : EnvId) :
    SessionM.Relays signal (ev₁.forLoop call env) (ev₂.forLoop call env) := by
  unfold Evaluator.forLoop
  split
  · split
    · exact (relays_evaluate h _ _).bind fun _ => h _
    · exact relays_same _
  · exact relays_same _

theorem relays_evaluateFirst (args : ArgList) (env : EnvId) :
    SessionM.Relays signal (ev₁.evaluateFirst args env) (ev₂.evaluateFirst args env) := by
  cases args with
  | nil => exact relays_same _
  | cons arg _ => exact relays_evaluate h _ _

theorem relays_returnValue (call : Call) (env : EnvId) :
    SessionM.Relays signal (ev₁.returnValue call env) (ev₂.returnValue call env) :=
  .after _ fun _ => (relays_evaluateFirst h _ _).before _

theorem relays_useMethodForm (call : Call) (env : EnvId) :
    SessionM.Relays signal (ev₁.useMethodForm call env) (ev₂.useMethodForm call env) := by
  refine .after _ fun _ => (relays_evaluateFirst h _ _).bind fun _ => .after _ fun _ => ?_
  split
  · exact (relays_evaluate h _ _).bind fun _ => relays_useMethod h _ _ _
  · exact relays_useMethod h _ _ _

theorem relays_runSpecial (form : SpecialForm) (call : Call) (env : EnvId) :
    SessionM.Relays signal (ev₁.runSpecial form call env) (ev₂.runSpecial form call env) := by
  cases form with
  | assign => exact relays_assign h _ _
  | assignEquals => exact relays_assign h _ _
  | assignOuter => exact relays_assignOuter h _ _
  | block => exact relays_evaluateBlock h _ _ _
  | ifElse => exact relays_ifElse h _ _
  | forLoop => exact relays_forLoop h _ _
  | returnValue => exact relays_returnValue h _ _
  | useMethod => exact relays_useMethodForm h _ _
  | _ => exact relays_same _

/-! ## Builtins -/

theorem relays_runNamespaceQuery (query : NamespaceQuery) (args : ArgList) (env : EnvId) :
    SessionM.Relays signal (ev₁.runNamespaceQuery query args env)
      (ev₂.runNamespaceQuery query args env) := by
  cases query with
  | registerMethod =>
    exact .after _ fun _ => .after _ fun _ => .after _ fun _ => .after _ fun _ => .after _ fun _ =>
      .after _ fun _ => .after _ fun _ => (relays_registerMethodFrom h _ _ _ _).before _
  | _ => exact relays_same _

theorem relays_runEager (builtin : EagerBuiltin) (args : ArgList) (env : EnvId) :
    SessionM.Relays signal (ev₁.runEager builtin args env) (ev₂.runEager builtin args env) := by
  cases builtin with
  | arithmetic op => exact (relays_dispatchOperator h _ _ _).before _
  | namespaces query => exact relays_runNamespaceQuery h _ _ _
  | _ => exact relays_same _

/-! ## Expressions -/

theorem relays_evaluateSymbol (name : Symbol) (env : EnvId) :
    SessionM.Relays signal (ev₁.evaluateSymbol name env) (ev₂.evaluateSymbol name env) := by
  refine .ite (relays_same _) (.ite (relays_same _) (.after _ fun value => ?_))
  split
  · exact relays_same _
  · exact (relays_force h _).before _

theorem relays_functionOf (call : Call) (env : EnvId) :
    SessionM.Relays signal (ev₁.functionOf call env) (ev₂.functionOf call env) := by
  unfold Evaluator.functionOf
  split
  · exact relays_requireFunction h _ _
  · exact relays_evaluate h _ _

/-! ## Loops, one iteration at a time -/

theorem relays_iterate (env : EnvId) (var : Symbol) (body : Value) (elements : List Elements) :
    SessionM.Relays signal (ev₁.iterate env var body elements)
      (ev₂.iterate env var body elements) := by
  induction elements with
  | nil => exact relays_same _
  | cons element rest ih =>
    exact .after _ fun _ => .after _ fun _ => (relays_evaluate h _ _).bind fun _ => ih

theorem relays_genericRun (env : EnvId) (var : Symbol) (sequence body : Value) :
    SessionM.Relays signal (ev₁.genericRun env var sequence body)
      (ev₂.genericRun env var sequence body) := by
  unfold Evaluator.genericRun
  split
  · exact relays_iterate h _ _ _ _
  · exact relays_same _

end Evaluator

namespace Evaluator

variable {target : EnvId} {value : Value} {ev₁ ev₂ : Evaluator} {s : Session}

/-! ## Invocations -/

/-- The result is that of an invocation, which ended with a value that was returned to its frame. -/
def Catches (ev : Evaluator) (target : EnvId) (value : Value)
    (result : Except Interrupt Value × Session) : Prop :=
  ∃ (closure : Closure) (callerEnv : EnvId) (call : Call) (args : ArgList)
    (extra : List (Symbol × Value)) (t : Session),
    result = ev.invoke closure callerEnv call args extra t ∧
    (t.heap.allocate (some closure.env)).1 = target ∧ result.1 = .ok value

/-- A return that aims at `env` ends here, every other one is handed on. -/
theorem relaysAt_catchReturn (env : EnvId) {x y : SessionM Value}
    (hx : RelaysAt (.returning target value) s x y) :
    RelaysAt (.returning target value) s (catchReturn env x) (catchReturn env y) ∨
      env = target ∧ (catchReturn env x s).1 = .ok value := by
  rcases hx with hsame | ⟨hx, hy⟩
  · left
    left
    simp only [catchReturn, hsame]
  · rcases hxs : x s with ⟨outcome, t⟩
    rcases hys : y s with ⟨outcome', t'⟩
    rw [hxs] at hx
    rw [hys] at hy
    cases hx
    cases hy
    -- only the invocation that is aimed at lets the two runs come to different ends
    by_cases henv : env = target
    · subst henv
      right
      rw [catchReturn_run_caught hxs]
      exact ⟨rfl, rfl⟩
    · left
      right
      rw [catchReturn_run_passed hxs fun _ he => henv (by cases he; rfl),
        catchReturn_run_passed hys fun _ he => by cases he]
      exact ⟨rfl, rfl⟩

theorem relaysAt_withInvocation (i : Invocation) {x y : SessionM Value}
    (Ends : Except Interrupt Value → Prop)
    (hx : RelaysAt (.returning target value) (s.enter i) x y ∨ Ends (x (s.enter i)).1) :
    RelaysAt (.returning target value) s (withInvocation i x) (withInvocation i y) ∨
      Ends (withInvocation i x s).1 := by
  by_cases hroom : s.depth < s.options.maxCallDepth
  · simp only [RelaysAt, withInvocation_run i _ hroom]
    rcases hx with (hsame | hends) | hends
    · exact .inl (.inl (by rw [hsame]))
    · exact .inl (.inr hends)
    · exact .inr hends
  · have hfull : s.options.maxCallDepth ≤ s.depth := by omega
    left
    left
    rw [withInvocation_run_full i x hfull, withInvocation_run_full i y hfull]

/-! ## Loops on trial -/

/-- What precedes the generic run of a loop that may be run on whole vectors; true if that takes the
    place of the generic run. -/
def loopTrial (ev : Evaluator) (call : Call) (env : EnvId) (var : Symbol) (sequence body : Value) :
    SessionM Bool := do
  ev.ensureAnalyzed call env var body
  ev.tryFused call env var sequence

/-- The task is a loop that may be run on whole vectors, and runs out of fuel before its generic
    run. -/
def EndsOnTrial (ev : Evaluator) (task : Task) (s : Session) : Prop :=
  match task with
  | .loop call env var sequence body =>
    s.options.compileLoops = true ∧
      (ev.loopTrial call env var sequence body s).1 = .error .exhausted
  | _ => False

theorem runLoop_run (ev : Evaluator) (hcompile : s.options.compileLoops = true) {call : Call}
    {env : EnvId} {var : Symbol} {sequence body : Value} :
    ev.runLoop call env var sequence body s = (do
      let fused ← ev.loopTrial call env var sequence body
      unless fused do
        SessionM.count fun stats => { stats with genericRuns := stats.genericRuns + 1 }
        ev.genericRun env var sequence body
      return .null : SessionM Value) s := by
  simp only [runLoop, get_bind_run, if_pos hcompile, loopTrial, bind_assoc]

variable (h : Relays (.returning target value) ev₁ ev₂)
include h

theorem agree_loopTrial (call : Call) (env : EnvId) (var : Symbol) (sequence body : Value) :
    Contract.untilExhausted.Agree (ev₁.loopTrial call env var sequence body)
      (ev₂.loopTrial call env var sequence body) := by
  have hblind := Contract.untilExhausted_loopBlind
  have hall : Contract.untilExhausted.AgreeAll ev₁ ev₂ :=
    .of_until fun task s => (h task s).imp_right And.right
  exact (hblind.agree_ensureAnalyzed hall call env var body).bind fun _ =>
    hblind.agree_tryFused hall call env var sequence

/-! ## Tasks -/

theorem relaysAt_invoke (closure : Closure) (callerEnv : EnvId) (call : Call) (args : ArgList)
    (extra : List (Symbol × Value)) (s : Session) :
    RelaysAt (.returning target value) s (ev₁.invoke closure callerEnv call args extra)
        (ev₂.invoke closure callerEnv call args extra) ∨
      Catches ev₁ target value (ev₁.invoke closure callerEnv call args extra s) := by
  have hrun : RelaysAt (.returning target value) s
        (ev₁.invoke closure callerEnv call args extra)
        (ev₂.invoke closure callerEnv call args extra) ∨
      (s.heap.allocate (some closure.env)).1 = target ∧
        (ev₁.invoke closure callerEnv call args extra s).1 = .ok value := by
    refine (relays_same _ s).bind_or (fun result => _ ∧ result.1 = .ok value) fun env t halloc => ?_
    have henv : (s.heap.allocate (some closure.env)).1 = env := by cases halloc; rfl
    rw [henv]
    -- only the body of the closure is handed on, and what it ends with is caught or not
    refine relaysAt_withInvocation _ (fun outcome => env = target ∧ outcome = .ok value) ?_
    let Ends (result : Except Interrupt Value × Session) : Prop :=
      env = target ∧ result.1 = .ok value
    refine (relays_same _ _).bind_or Ends fun _ t _ => ?_
    refine (relays_same _ t).bind_or Ends fun _ t _ => ?_
    exact relaysAt_catchReturn _ (relays_evaluate h _ _ t)
  refine hrun.imp_right fun ⟨henv, hvalue⟩ => ?_
  exact ⟨closure, callerEnv, call, args, extra, s, rfl, henv, hvalue⟩

theorem relaysAt_evaluateCall (call : Call) (env : EnvId) (s : Session) :
    RelaysAt (.returning target value) s (ev₁.evaluateCall call env) (ev₂.evaluateCall call env) ∨
      Catches ev₁ target value (ev₁.evaluateCall call env s) := by
  refine (relays_functionOf h call env s).bind_or (Catches ev₁ target value) fun function t _ => ?_
  cases function with
  | closure closure =>
    exact (relays_same _ t).bind_or _ fun args u _ =>
      relaysAt_invoke h closure env call args [] u
  | builtin identity builtin =>
    left
    cases builtin with
    | special form => exact relays_runSpecial h form call env t
    | eager builtin =>
      exact ((relays_argValues h call.args env).bind fun args =>
        relays_runEager h builtin args env) t
  | _ => exact .inl (relays_same _ t)

theorem relaysAt_evaluateExpr (expr : Value) (env : EnvId) (s : Session) :
    RelaysAt (.returning target value) s (ev₁.evaluateExpr expr env) (ev₂.evaluateExpr expr env) ∨
      Catches ev₁ target value (ev₁.evaluateExpr expr env s) := by
  cases expr with
  | symbol name => exact .inl (relays_evaluateSymbol h name env s)
  | call call => exact relaysAt_evaluateCall h call env s
  | promise id => exact .inl (relays_demand h id s)
  | _ => exact .inl (relays_same _ s)

theorem relaysAt_applyValue (function : Value) (call : Call) (args : ArgList) (env : EnvId)
    (extra : List (Symbol × Value)) (s : Session) :
    RelaysAt (.returning target value) s (ev₁.applyValue function call args env extra)
        (ev₂.applyValue function call args env extra) ∨
      Catches ev₁ target value (ev₁.applyValue function call args env extra s) := by
  cases function with
  | closure closure => exact relaysAt_invoke h closure env call args extra s
  | builtin identity builtin =>
    left
    cases builtin with
    | special form => exact relays_runSpecial h form call env s
    | eager builtin =>
      exact (SessionM.Relays.bind (.mapM (relays_forceArg h)) fun args =>
        relays_runEager h builtin args env) s
  | _ => exact .inl (relays_same _ s)

theorem relaysAt_runLoop (call : Call) (env : EnvId) (var : Symbol) (sequence body : Value)
    (s : Session) :
    RelaysAt (.returning target value) s (ev₁.runLoop call env var sequence body)
        (ev₂.runLoop call env var sequence body) ∨
      s.options.compileLoops = true ∧
        (ev₂.loopTrial call env var sequence body s).1 = .error .exhausted := by
  by_cases hcompile : s.options.compileLoops = true
  · simp only [RelaysAt, runLoop_run _ hcompile]
    obtain ⟨hsame | ⟨-, hended⟩, -, -⟩ :=
      agree_loopTrial h call env var sequence body s trivial
    · refine .inl (RelaysAt.bind (.inl hsame) fun fused t _ => ?_)
      cases fused with
      | true => exact relays_same _ t
      | false =>
        exact (SessionM.Relays.after _ fun _ =>
          (relays_genericRun h env var sequence body).before _) t
    · exact .inr ⟨hcompile, hended⟩
  · left
    refine (relays_same _ s).bind fun t u hget => ?_
    cases hget
    rw [if_neg hcompile, if_neg hcompile]
    exact ((relays_genericRun h env var sequence body).before _) s

/-- A task relays a return, ends as the invocation that catches it, or is a loop that comes to know
    of it while its names are resolved on trial. -/
theorem relaysAt_step (task : Task) (s : Session) :
    RelaysAt (.returning target value) s (ev₁.step task) (ev₂.step task) ∨
      Catches ev₁ target value (ev₁.step task s) ∨ EndsOnTrial ev₂ task s := by
  cases task with
  | evaluate expr env => exact (relaysAt_evaluateExpr h expr env s).imp_right .inl
  | apply function call args env extra =>
    exact (relaysAt_applyValue h function call args env extra s).imp_right .inl
  | loop call env var sequence body =>
    exact (relaysAt_runLoop h call env var sequence body s).imp_right .inr

end Evaluator

end CallByNeed
