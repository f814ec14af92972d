import CallByNeed.Proofs.Methods.Tables
import CallByNeed.Proofs.Restrained.Discipline
import CallByNeed.Proofs.UseMethod

/-!
# Restrained evaluation keeps every discipline

One rule of evaluation after the other keeps a discipline if the evaluator does
to which it hands on its tasks.  The arguments that a rule hands on are suspended
(`Task.IsSuspended`); where an invocation fills its frame with them, the frame is
one that the discipline allows (`opensBy_furnish`).
-/

namespace CallByNeed

open Matching

/-- Arguments on their way to a function are suspended, and only dispatch binds names besides. -/
def Task.IsSuspended : Task → Prop
  | .apply _ _ args _ extra => Suspended args ∧ ∀ entry ∈ extra, entry.1 ∈ methodVariables
  | _ => True

/-! ## The frame of an invocation -/

namespace Session

variable {R : Restraint} {s t : Session} {env : EnvId} {formals : ArgList}

/-- The action binds names in the new frame, and the frame remains that of an invocation. -/
def OpensBy (R : Restraint) (s t : Session) (env : EnvId) (act : SessionM Unit) : Prop :=
  ∃ u, act t = (.ok (), u) ∧ u.stack = t.stack ∧ u.heap.WellFormed ∧ s.Opens R u env

theorem Opens.bindFormal (h : s.Opens R t env) (hwf : t.heap.WellFormed)
    (hformals : R.declares formals = true) {formal : Arg Value} {value : Value}
    (hvalue : ∀ name, formal.tag = some name → Fills formals name value)
    (hmissing : ∀ name, formal.tag = some name → value.isMissingArg = true →
      ∀ v : Value, v.IsSuspended → Fills formals name v) :
    s.OpensBy R t env (SessionM.bindFormal env formal value) := by
  unfold SessionM.bindFormal
  cases htag : formal.tag with
  | none => exact ⟨t, rfl, rfl, hwf, h⟩
  | some name =>
    dsimp only
    split
    · rename_i hdefault
      obtain ⟨hmissed, -⟩ := Bool.and_eq_true_iff.1 hdefault
      let promised : Session :=
        { t with promises := (t.promises.add ⟨formal.value, .waiting env false⟩).2 }
      have hpromised : s.Opens R promised env := h.congr rfl
      refine ⟨_, (SessionM.onHeap_modifyFrame env name _ promised).trans (if_pos h.contains), rfl,
        hwf.updateSlot _ _, hpromised.bound hformals ?_⟩
      exact hmissing name htag hmissed _ (.inr ⟨_, rfl⟩)
    · exact ⟨_, (SessionM.bindIn_run env name value t).trans (if_pos h.contains), rfl,
        hwf.updateSlot _ _, h.bound hformals (hvalue name htag)⟩

theorem Opens.forM {α : Type} (act : α → SessionM Unit) (items : List α) (h : s.Opens R t env)
    (hwf : t.heap.WellFormed)
    (hact : ∀ a ∈ items, ∀ u : Session, s.Opens R u env → u.heap.WellFormed →
      s.OpensBy R u env (act a)) : s.OpensBy R t env (items.forM act) := by
  induction items generalizing t with
  | nil => exact ⟨t, rfl, rfl, hwf, h⟩
  | cons a rest ih =>
    obtain ⟨u, hrun, hstack, hwf', hu⟩ := hact a List.mem_cons_self t h hwf
    obtain ⟨v, hrest, hstack', hwf'', hv⟩ := ih hu hwf' fun b hb => hact b (.tail _ hb)
    exact ⟨v, (SessionM.bind_run_ok hrun _).trans hrest, hstack'.trans hstack, hwf'', hv⟩

/-- Filling a new frame fails at once, or it binds there what the frame of an invocation may
    have. -/
theorem opensBy_furnish (h : s.Opens R t env) (hwf : t.heap.WellFormed) {closure : Closure}
    (hformals : R.declares closure.formals = true) {args : ArgList} (hargs : Suspended args)
    {extra : List (Symbol × Value)} (hextra : ∀ entry ∈ extra, entry.1 ∈ methodVariables) :
    (∃ e, SessionM.furnish closure env args extra t = (.error (.failure e), t)) ∨
      s.OpensBy R t env (SessionM.furnish closure env args extra) := by
  have hbind {outcome : Except EvalError ArgList}
      (houtcome : matchFormals closure.formals args true = outcome) :
      SessionM.furnish closure env args extra = (do
        let matched ← SessionM.ofExcept outcome
        (closure.formals.zip matched).forM fun pair =>
          SessionM.bindFormal env pair.1 pair.2.value
        extra.forM fun entry => SessionM.bindIn env entry.1 entry.2) := by
    rw [SessionM.furnish, SessionM.bindArguments, houtcome, bind_assoc]
  cases hmatched : matchFormals closure.formals args true with
  | error e => exact .inl ⟨e, by rw [hbind hmatched]; rfl⟩
  | ok matched =>
    obtain ⟨u, hbound, hstack, hwf', hu⟩ := h.forM
      (fun pair => SessionM.bindFormal env pair.1 pair.2.value)
      (closure.formals.zip matched) hwf fun pair hmem v hv hvwf => by
        obtain ⟨formal, arg⟩ := pair
        have hfills {name : Symbol} (hname : formal.tag = some name) :=
          fills_of_matchFormals hargs hmatched hmem hname
        refine hv.bindFormal hvwf hformals (fun name hname => hfills hname)
          fun name hname hmissed v hv => ?_
        -- a formal that gets the missing sentinel is an ordinary one
        have hgot := hfills hname
        generalize arg.value = got at hgot hmissed
        cases hgot with
        | supplied hformal htag hordinary => exact .supplied hformal htag hordinary hv
        | collected => cases hmissed
        | besides hbesides => exact .besides hbesides
    obtain ⟨v, hextras, hstack', hwf'', hv⟩ := hu.forM
      (fun entry => SessionM.bindIn env entry.1 entry.2) extra hwf'
      fun entry hmem w hw hwwf => by
        obtain ⟨name, value⟩ := entry
        exact ⟨w.bound env name ⟨value, false⟩,
          (SessionM.bindIn_run env name value w).trans (if_pos hw.contains), rfl,
          hwwf.updateSlot _ _, hw.bound hformals (.besides (hextra _ hmem))⟩
    refine .inr ⟨v, ?_, hstack'.trans hstack, hwf'', hv⟩
    rw [hbind hmatched, SessionM.ofExcept_ok, SessionM.pure_bind_run, SessionM.bind_run_ok hbound,
      hextras]

end Session

namespace Discipline

variable {R : Restraint} {D : Discipline R} {ev : Evaluator} {α : Type}

/-- The evaluator keeps the discipline with every task whose arguments are suspended. -/
def IsKeptBy (D : Discipline R) (ev : Evaluator) : Prop :=
  ∀ task : Task, task.IsSuspended → D.Holds (ev task)

section

variable (h : D.IsKeptBy ev)
include h

/-! ## Promises and functions by name -/

theorem holds_evaluate (expr : Value) (env : EnvId) : D.Holds (ev.evaluate expr env) :=
  h (.evaluate expr env) trivial

theorem holds_demand (id : PromiseId) : D.Holds (ev.demand id) := by
  refine holds_get_bind fun s _ => ?_
  split
  · exact holds_pure trivial
  · refine ((holds_evaluate h _ _).whileEvaluating id).andThen fun value => ?_
    exact (holds_modifyGet (P := fun _ => True) (fun _ => rfl) (fun _ => rfl)
      fun _ => trivial).andThen fun _ => holds_pure trivial
  · exact holds_fail _

theorem holds_force (value : Value) : D.Holds (ev.force value) := by
  cases value with
  | promise id => exact holds_demand h id
  | _ => exact holds_pure trivial

theorem holds_lookup (env : EnvId) (name : Symbol) : D.Holds (ev.lookup env name) :=
  (holds_askHeap _).andThen fun value => holds_force h value

theorem holds_functionWithin (name : Symbol) (fuel : Nat) (start : Option EnvId) :
    D.Holds (ev.functionWithin name fuel start) := by
  induction fuel generalizing start with
  | zero =>
    cases start with
    | none => exact holds_pure trivial
    | some id => exact holds_throw _
  | succ fuel ih =>
    cases start with
    | none => exact holds_pure trivial
    | some id =>
      refine (holds_askHeap _).andThen fun frame => ?_
      split
      · exact (holds_force h _).andThen fun value =>
          .ite (fun _ => holds_pure trivial) fun _ => ih _
      · exact ih _

theorem holds_function? (env : EnvId) (name : Symbol) : D.Holds (ev.function? env name) :=
  holds_get_bind fun _ _ => holds_functionWithin h name _ _

theorem holds_requireFunction (env : EnvId) (name : Symbol) :
    D.Holds (ev.requireFunction env name) := by
  refine (holds_function? h env name).andThen fun found => ?_
  cases found with
  | some function => exact holds_pure trivial
  | none => exact holds_fail _

/-! ## Arguments -/

theorem holds_forceArg (arg : Arg Value) : D.Holds (ev.forceArg arg) :=
  .ite (fun _ => holds_pure trivial)
    fun _ => (holds_force h _).andThen fun _ => holds_pure trivial

theorem holds_forceArgs (args : ArgList) : D.Holds (args.mapM ev.forceArg) :=
  (Holds.mapM (Q := fun _ => True) fun arg _ => holds_forceArg h arg).weaken fun _ _ => trivial

theorem holds_argValues (args : ArgList) (env : EnvId) : D.Holds (ev.argValues args env) := by
  induction args with
  | nil => exact holds_pure trivial
  | cons arg rest ih =>
    have hrest (evaluated : ArgList) : D.Holds (do
        return evaluated ++ (← ev.argValues rest env)) :=
      ih.andThen fun _ => holds_pure trivial
    refine .ite (fun _ => ?_) fun _ => .ite (fun _ => ?_) fun _ => ?_
    · exact (holds_ellipsisArgs env).andThen fun dots => (holds_forceArgs h dots).andThen hrest
    · exact hrest [arg]
    · exact (holds_evaluate h _ _).andThen fun value => hrest [Arg.new arg.tag value]

/-! ## Invocations -/

/-- The new frame is filled and nothing else happens before the body is evaluated. -/
theorem holds_invoke (closure : Closure) (callerEnv : EnvId) (call : Call) {args : ArgList}
    (hargs : Suspended args) {extra : List (Symbol × Value)}
    (hextra : ∀ entry ∈ extra, entry.1 ∈ methodVariables) :
    D.Holds (R.invoke ev closure callerEnv call args extra) := by
  refine .onlyIf fun s hs hformals => ?_
  let env := (s.heap.allocate (some closure.env)).1
  let made : Session := { s with heap := (s.heap.allocate (some closure.env)).2 }
  let i : Invocation := ⟨env, callerEnv, closure, call, args⟩
  have hmade : made.Orderly := hs.allocate _
  have hopens : s.Opens R made env := .allocate hs _
  have hrun : SessionM.allocate (some closure.env) s = (.ok env, made) := rfl
  rw [Evaluator.invoke_eq]
  by_cases hroom : made.depth < made.options.maxCallDepth
  · let entered := made.enter i
    have hentered : entered.Orderly := ⟨hmade.wellFormed, List.forall_mem_cons.2 ⟨hargs, hs.args⟩⟩
    have hinside := SessionM.bind_run_ok hrun fun env =>
      SessionM.withInvocation ⟨env, callerEnv, closure, call, args⟩ do
        SessionM.furnish closure env args extra
        SessionM.catchReturn env (ev.evaluate closure.body env)
    rw [SessionM.withInvocation_run _ _ hroom] at hinside
    obtain ⟨e, hfails⟩ | ⟨u, hfurnish, hstack, hwf, hu⟩ :=
      Session.opensBy_furnish (hopens.congr (u := entered) rfl) hentered.wellFormed hformals hargs
        hextra
    · rw [SessionM.bind_run_error hfails] at hinside
      exact .of_rel hinside (D.opens hs hmade hopens) hmade.wellFormed rfl fun _ h => by cases h
    · rw [SessionM.bind_run_ok hfurnish] at hinside
      have hfilled : u.Orderly := ⟨hwf, hstack ▸ hentered.args⟩
      have hbody := (holds_evaluate h closure.body env).catchReturn env u hfilled
      have hleft : (SessionM.catchReturn env (ev.evaluate closure.body env) u).2.leave.stack =
          s.stack := by
        rw [Session.leave, hbody.stack, hstack]
        rfl
      refine .of_rel hinside ?_ hbody.wellFormed hleft fun _ _ => trivial
      refine D.trans (D.opens hs hfilled hu)
        (D.trans hbody.rel (D.same (hbody.orderly hfilled) ?_ rfl))
      exact ⟨hbody.wellFormed, hleft ▸ hs.args⟩
  · have hinside := SessionM.bind_run_ok hrun fun env =>
      SessionM.withInvocation ⟨env, callerEnv, closure, call, args⟩ do
        SessionM.furnish closure env args extra
        SessionM.catchReturn env (ev.evaluate closure.body env)
    rw [SessionM.withInvocation_run_full _ _ (by omega)] at hinside
    exact .of_rel hinside (D.opens hs hmade hopens) hmade.wellFormed rfl fun _ h => by cases h

/-! ## Methods -/

theorem holds_genericEnv (generic : String) (env : EnvId) :
    D.Holds (ev.genericEnv generic env) := by
  refine holds_get_bind fun s _ => .ite (fun _ => holds_pure trivial) fun _ => ?_
  refine (holds_function? h _ _).andThen fun found => ?_
  split
  · exact holds_pure trivial
  · exact holds_pure trivial
  · exact holds_pure trivial
  · exact holds_fail _

theorem holds_methodOf (method : Value) (env : EnvId) : D.Holds (ev.methodOf method env) := by
  refine .ite (fun _ => holds_pure trivial) fun _ => ?_
  split
  · exact holds_requireFunction h _ _
  · exact holds_fail _

omit h in
theorem holds_registerMethod (generic className : String) (method : Value) (env : EnvId) :
    D.Holds (R.registerMethod generic className method env) := by
  refine .onlyIf fun s hs hname => ?_
  obtain ⟨e, hrun, -⟩ | ⟨table, -, -, hrun⟩ | ⟨-, hrun⟩ :=
    SessionM.registerMethod_run hs.wellFormed generic className method env
  · exact .of_same hs hrun rfl rfl fun _ h => nomatch h
  · have ht := hs.bound table (methodName generic className) ⟨method, false⟩
    exact .of_rel hrun (D.registers hs ht hname hrun) ht.wellFormed rfl fun _ _ => trivial
  · have ht : (s.tabled env).Orderly := ⟨Session.WellFormed.tabled hs.wellFormed env, hs.args⟩
    have ht' := ht.bound (s.heap.allocate (some s.baseEnv)).1 (methodName generic className)
      ⟨method, false⟩
    exact .of_rel hrun (D.registers hs ht' hname hrun) ht'.wellFormed rfl fun _ _ => trivial

theorem holds_registerMethodFrom (generic className : String) (method : Value) (env : EnvId) :
    D.Holds (R.registerMethodFrom ev generic className method env) := by
  refine (holds_genericEnv h generic env).andThen fun definitionEnv => ?_
  cases definitionEnv with
  | none => exact holds_fail _
  | some definitionEnv =>
    exact (holds_methodOf h method env).andThen fun _ => holds_registerMethod _ _ _ _

theorem holds_method? (name : Symbol) (env : EnvId) (table : Option EnvId) :
    D.Holds (ev.method? name env table) := by
  refine (holds_function? h env name).andThen fun found => ?_
  split
  · exact holds_pure trivial
  · exact holds_pure trivial
  · refine (holds_askHeap _).andThen fun registered => ?_
    cases registered with
    | none => exact holds_pure trivial
    | some value => exact (holds_force h value).andThen fun _ => holds_pure trivial

theorem holds_methodForClasses (generic : String) (env : EnvId) (table : Option EnvId)
    (classes : List String) : D.Holds (ev.methodForClasses generic env table classes) := by
  induction classes with
  | nil => exact holds_pure trivial
  | cons className rest ih =>
    refine (holds_method? h _ _ _).andThen fun found => ?_
    cases found with
    | some method => exact holds_pure trivial
    | none => exact ih

theorem holds_methodOrDefault (generic : String) (classes : List String) (env : EnvId)
    (table : Option EnvId) : D.Holds (ev.methodOrDefault generic classes env table) := by
  refine (holds_methodForClasses h _ _ _ _).andThen fun found => ?_
  cases found with
  | some selected => exact holds_pure trivial
  | none => exact (holds_method? h _ _ _).andThen fun _ => holds_pure trivial

theorem holds_selectMethod (generic : String) (classes : List String) (env : EnvId)
    (definitionEnv : Option EnvId) :
    D.Holds (ev.selectMethod generic classes env definitionEnv) := by
  cases definitionEnv with
  | some definitionEnv =>
    exact (holds_askHeap _).andThen fun _ => holds_methodOrDefault h _ _ _ _
  | none => exact holds_methodOrDefault h _ _ _ _

theorem holds_receiver (formals : ArgList) (env : EnvId) : D.Holds (ev.receiver formals env) := by
  unfold Evaluator.receiver
  split
  · exact holds_pure trivial
  · refine (holds_askHeap _).andThen fun found => ?_
    split
    · exact holds_pure trivial
    · refine .ite (fun _ => ?_) fun _ => .ite (fun _ => holds_fail _) fun _ => holds_force h _
      split
      · exact holds_force h _
      · exact holds_pure trivial

theorem holds_firstMethod (env : EnvId) (table : Option EnvId) (names : List Symbol) :
    D.Holds (ev.firstMethod env table names) := by
  induction names with
  | nil => exact holds_pure trivial
  | cons name rest ih =>
    refine (holds_method? h _ _ _).andThen fun found => ?_
    cases found with
    | some method => exact holds_pure trivial
    | none => exact ih

/-- The operands are promised, each as itself. -/
theorem holds_dispatchOperator (op : String) (env : EnvId) (args : ArgList) :
    D.Holds (ev.dispatchOperator op env args) := by
  refine holds_get_bind fun s _ => (holds_askHeap _).andThen fun table => ?_
  refine (holds_firstMethod h _ _ _).andThen fun found => ?_
  cases found with
  | none => exact holds_pure trivial
  | some method =>
    have hpromise (arg : Arg Value) : D.Holds (do
        return Arg.new arg.tag (← SessionM.newKept arg.value arg.value))
        fun arg => arg.value.IsSuspended :=
      (holds_newKept _ _).bind fun _ hv => holds_pure hv
    refine (Holds.mapM fun arg _ => hpromise arg).bind fun promised hpromised => ?_
    refine (holds_newCall _ _).andThen fun call => (holds_newVector _ _).andThen fun generic => ?_
    exact (h (.apply _ _ _ _ _) ⟨hpromised, by simp [methodVariables]⟩).andThen
      fun _ => holds_pure trivial

omit h in
theorem holds_classesValue (classes : List String) : D.Holds (Evaluator.classesValue classes) :=
  .ite (fun _ => holds_pure trivial) fun _ => holds_newVector _ _

theorem holds_applyMethod (generic : String) (object : Value) {invocation : Invocation}
    (hargs : Suspended invocation.args) (env : EnvId) :
    D.Holds (ev.applyMethod generic object invocation env) := by
  refine (holds_genericEnv h _ _).andThen fun definitionEnv => ?_
  refine (holds_selectMethod h _ _ _ _).andThen fun found => ?_
  cases found with
  | none => exact holds_fail _
  | some selected =>
    refine (holds_newVector _ _).andThen fun _ => (holds_classesValue _).andThen fun _ => ?_
    exact (h (.apply _ _ _ _ _) ⟨hargs, by simp [methodVariables]⟩).andThen fun _ => holds_throw _

theorem holds_useMethod (generic : String) (object : Option Value) (env : EnvId) :
    D.Holds (ev.useMethod generic object env) := by
  refine holds_get_bind fun s hs => ?_
  cases hfound : s.invocationOf? env with
  | none => exact holds_fail _
  | some invocation =>
    have hargs := hs.args _ (List.mem_of_find?_eq_some hfound)
    cases object with
    | some object => exact holds_applyMethod h _ _ hargs _
    | none => exact (holds_receiver h _ _).andThen fun object => holds_applyMethod h _ _ hargs _

/-! ## Special forms -/

omit h in
theorem holds_oneArg (call : Call) (form : SpecialForm) : D.Holds (SessionM.oneArg call form) := by
  unfold SessionM.oneArg
  split
  · exact holds_pure trivial
  · exact holds_fail _

omit h in
theorem holds_twoArgs (call : Call) (form : SpecialForm) :
    D.Holds (SessionM.twoArgs call form) := by
  unfold SessionM.twoArgs
  split
  · exact holds_pure trivial
  · exact holds_fail _

omit h in
theorem holds_requireArity (call : Call) (form : SpecialForm) (least most : Nat) :
    D.Holds (SessionM.requireArity call form least most) :=
  .ite (fun _ => holds_fail _) fun _ => holds_pure trivial

omit h in
theorem holds_assignmentTarget (target : Value) : D.Holds (SessionM.assignmentTarget target) := by
  unfold SessionM.assignmentTarget
  split
  · exact .ite (fun _ => holds_fail _) fun _ => holds_pure trivial
  · split
    · exact holds_pure trivial
    · exact holds_fail _

omit h in
theorem holds_makeFunction (call : Call) (env : EnvId) :
    D.Holds (SessionM.makeFunction call env) := by
  refine (holds_twoArgs call .function).andThen fun (formals, body) => ?_
  have hrest (formals : ArgList) : D.Holds (do
      return Value.closure ⟨← SessionM.newIdentity, formals, body, env⟩) :=
    holds_newIdentity.andThen fun _ => holds_pure trivial
  cases formals with
  | list formals => exact hrest formals
  | null => exact hrest []
  | _ => exact (holds_fail (P := fun _ => True) _).andThen hrest

omit h in
theorem holds_missingForm (call : Call) (env : EnvId) :
    D.Holds (SessionM.missingForm call env) := by
  have hpromise (p : Promise) : D.Holds (SessionM.promiseIsMissing p) := by
    unfold SessionM.promiseIsMissing
    split
    · exact .ite (fun _ => holds_pure trivial)
        fun _ => (holds_askHeap _).andThen fun _ => holds_pure trivial
    · exact holds_pure trivial
  have hmissing (name : Symbol) : D.Holds (SessionM.isMissing env name) := by
    refine (holds_askHeap _).andThen fun frame => ?_
    split
    · exact holds_fail _
    · refine .ite (fun _ => holds_pure trivial) fun _ => ?_
      split
      · refine holds_get_bind fun s _ => ?_
        split
        · exact hpromise _
        · exact holds_pure trivial
      · exact holds_pure trivial
  refine (holds_oneArg call .missing).andThen fun arg => ?_
  split
  · exact (hmissing _).andThen fun _ => holds_newVector _ _
  · exact holds_fail _

theorem holds_evaluateBlock (env : EnvId) (args : ArgList) (last : Value) :
    D.Holds (ev.evaluateBlock env args last) := by
  induction args generalizing last with
  | nil => exact holds_pure trivial
  | cons arg rest ih => exact (holds_evaluate h _ _).andThen fun value => ih value

theorem holds_assign (call : Call) (env : EnvId) : D.Holds (R.assign ev call env) := by
  refine (holds_twoArgs call .assign).andThen fun (target, expr) => ?_
  refine (holds_assignmentTarget target).andThen fun name => ?_
  exact (holds_evaluate h expr env).andThen fun value => (holds_bindIn _ _ _).andThen
    fun _ => holds_pure trivial

theorem holds_assignOuter (call : Call) (env : EnvId) : D.Holds (R.assignOuter ev call env) := by
  refine (holds_twoArgs call .assignOuter).andThen fun (target, expr) => ?_
  refine (holds_assignmentTarget target).andThen fun name => ?_
  refine (holds_evaluate h expr env).andThen fun value => holds_get_bind fun s _ => ?_
  exact (holds_askHeap _).andThen fun outer => (holds_bindIn _ _ _).andThen
    fun _ => holds_pure trivial

theorem holds_ifElse (call : Call) (env : EnvId) : D.Holds (ev.ifElse call env) := by
  refine (holds_requireArity _ _ _ _).andThen fun _ => ?_
  split
  · refine (holds_evaluate h _ _).andThen fun value => ?_
    split
    · exact holds_fail _
    · exact holds_evaluate h _ _
    · split
      · exact holds_pure trivial
      · exact holds_evaluate h _ _
  · exact holds_pure trivial

theorem holds_forLoop (call : Call) (env : EnvId) : D.Holds (ev.forLoop call env) := by
  unfold Evaluator.forLoop
  split
  · split
    · exact (holds_evaluate h _ _).andThen fun _ => h (.loop _ _ _ _ _) trivial
    · exact holds_fail _
  · exact holds_fail _

theorem holds_evaluateFirst (args : ArgList) (env : EnvId) :
    D.Holds (ev.evaluateFirst args env) := by
  cases args with
  | nil => exact holds_pure trivial
  | cons arg rest => exact holds_evaluate h _ _

theorem holds_returnValue (call : Call) (env : EnvId) : D.Holds (ev.returnValue call env) := by
  refine (holds_requireArity _ _ _ _).andThen fun _ => ?_
  refine (holds_evaluateFirst h _ _).andThen fun value => holds_get_bind fun s _ => ?_
  exact .ite (fun _ => holds_throw _) fun _ => holds_fail _

theorem holds_useMethodForm (call : Call) (env : EnvId) : D.Holds (ev.useMethodForm call env) := by
  refine (holds_requireArity _ _ _ _).andThen fun _ => ?_
  refine (holds_evaluateFirst h _ _).andThen fun generic => ?_
  refine (holds_ofExcept (P := fun _ => True) fun _ _ => trivial).andThen fun generic => ?_
  split
  · exact (holds_evaluate h _ _).andThen fun object => holds_useMethod h _ _ _
  · exact holds_useMethod h _ _ _

theorem holds_runSpecial (form : SpecialForm) (call : Call) (env : EnvId) :
    D.Holds (R.runSpecial ev form call env) := by
  cases form with
  | quote => exact holds_oneArg _ _
  | function => exact holds_makeFunction _ _
  | assign => exact holds_assign h _ _
  | assignEquals => exact holds_assign h _ _
  | assignOuter => exact holds_assignOuter h _ _
  | block => exact holds_evaluateBlock h _ _ _
  | ifElse => exact holds_ifElse h _ _
  | forLoop => exact holds_forLoop h _ _
  | returnValue => exact holds_returnValue h _ _
  | missing => exact holds_missingForm _ _
  | useMethod => exact holds_useMethodForm h _ _
  | receivedCall => exact holds_pure trivial

/-! ## Builtins -/

omit h in
/-- A builtin that first reads its arguments. -/
theorem holds_afterReading {α β : Type} {r : Except EvalError α} {f : α → SessionM β}
    {Q : β → Prop} (hf : ∀ a, D.Holds (f a) Q) : D.Holds (SessionM.ofExcept r >>= f) Q :=
  (holds_ofExcept (P := fun _ => True) fun _ _ => trivial).andThen hf

theorem holds_registerMethodBuiltin (args : ArgList) (env : EnvId) :
    D.Holds (R.registerMethodBuiltin ev args env) :=
  holds_afterReading fun _ => holds_afterReading fun _ => holds_afterReading fun _ =>
    holds_afterReading fun _ => holds_afterReading fun _ => holds_afterReading fun _ =>
      holds_afterReading fun _ => (holds_registerMethodFrom h _ _ _ _).andThen
        fun _ => holds_pure trivial

omit h in
theorem holds_namespaceOf (value : Value) : D.Holds (SessionM.namespaceOf value) := by
  unfold SessionM.namespaceOf
  split
  · refine holds_get_bind fun s _ => ?_
    split
    · exact holds_pure trivial
    · exact holds_fail _
  · split
    · exact holds_loadNamespace _
    · exact holds_fail _

omit h in
theorem holds_runNamespaceQuery {query : NamespaceQuery} (hquery : query ≠ .registerMethod)
    (args : ArgList) (env : EnvId) : D.Holds (ev.runNamespaceQuery query args env) := by
  have honly (formal : String) : D.Holds (do
      let values ← SessionM.ofExcept (argsByName args [formal])
      SessionM.ofExcept (requireArg query.name values 0)) :=
    holds_afterReading fun _ => holds_ofExcept fun _ _ => trivial
  cases query with
  | registerMethod => exact absurd rfl hquery
  | load =>
    exact (honly "name").andThen fun _ => holds_afterReading fun _ =>
      (holds_loadNamespace _).andThen fun _ => holds_pure trivial
  | isNamespace =>
    refine (honly "ns").andThen fun value => ?_
    split
    · exact holds_get_bind fun _ _ => holds_newVector _ _
    · exact holds_newVector _ _
  | loaded => exact holds_get_bind fun _ _ => holds_newVector _ _
  | nameOf =>
    refine (honly "ns").andThen fun _ => (holds_namespaceOf _).andThen fun _ => ?_
    exact holds_get_bind fun _ _ => .ite (fun _ => holds_newVector _ _)
      fun _ => (holds_newVector _ _).andThen fun _ => holds_newVector _ _
  | exportsOf =>
    exact (honly "ns").andThen fun _ => (holds_namespaceOf _).andThen fun _ => holds_newVector _ _
  | importsOf =>
    exact (honly "ns").andThen fun _ => (holds_namespaceOf _).andThen fun _ =>
      holds_get_bind fun _ _ => holds_afterReading fun _ => holds_pure trivial
  | lookUp =>
    refine (honly "name").andThen fun _ => holds_afterReading fun _ => holds_get_bind fun _ _ => ?_
    split <;> exact holds_pure trivial

theorem holds_runArithmetic (op : BinaryOp) (args : ArgList) (env : EnvId) :
    D.Holds (ev.runArithmetic op args env) := by
  refine (holds_dispatchOperator h _ _ _).andThen fun found => ?_
  cases found with
  | some value => exact holds_pure trivial
  | none => exact holds_deliver _

omit h in
theorem holds_introspect (query : Introspection) (args : ArgList) (env : EnvId) :
    D.Holds (SessionM.introspect query args env) := by
  cases query with
  | depth => exact holds_get_bind fun _ _ => holds_newVector _ _
  | arguments => exact holds_pure trivial
  | collect => exact (holds_collect []).andThen fun _ => holds_newVector _ _
  | frame =>
    refine holds_get_bind fun s _ => ?_
    split <;> exact holds_pure trivial

theorem holds_runEager (builtin : EagerBuiltin) (args : ArgList) (env : EnvId) :
    D.Holds (R.runEager ev builtin args env) := by
  unfold Restraint.runEager
  split
  · exact holds_registerMethodBuiltin h _ _
  · rename_i hregisters
    cases builtin with
    | arithmetic op => exact holds_runArithmetic h _ _ _
    | namespaces query =>
      exact holds_runNamespaceQuery (fun hquery => hregisters (hquery ▸ rfl)) _ _
    | introspect query => exact holds_introspect _ _ _
    | _ => exact holds_deliver _

/-! ## Expressions -/

theorem holds_evaluateSymbol (name : Symbol) (env : EnvId) :
    D.Holds (ev.evaluateSymbol name env) := by
  refine .ite (fun _ => holds_fail _) fun _ => .ite (fun _ => holds_fail _) fun _ => ?_
  refine (holds_askHeap _).andThen fun value => ?_
  split
  · exact holds_fail _
  · exact (holds_force h _).andThen fun _ => .ite (fun _ => holds_fail _)
      fun _ => holds_pure trivial

theorem holds_functionOf (call : Call) (env : EnvId) : D.Holds (ev.functionOf call env) := by
  unfold Evaluator.functionOf
  split
  · exact holds_requireFunction h _ _
  · exact holds_evaluate h _ _

theorem holds_evaluateCall (call : Call) (env : EnvId) :
    D.Holds (R.evaluateCall ev call env) := by
  refine (holds_functionOf h call env).andThen fun function => ?_
  split
  · exact (holds_suspendArgs _ _).bind fun _ hargs => holds_invoke h _ _ _ hargs nofun
  · exact holds_runSpecial h _ _ _
  · exact (holds_argValues h _ _).andThen fun _ => holds_runEager h _ _ _
  · exact holds_fail _

theorem holds_evaluateExpr (expr : Value) (env : EnvId) :
    D.Holds (R.evaluateExpr ev expr env) := by
  cases expr with
  | symbol name => exact holds_evaluateSymbol h _ _
  | call call => exact holds_evaluateCall h _ _
  | promise id => exact holds_demand h _
  | dots args => exact holds_fail _
  | _ => exact holds_pure trivial

theorem holds_applyValue (function : Value) (call : Call) {args : ArgList} (env : EnvId)
    {extra : List (Symbol × Value)} (hargs : Suspended args)
    (hextra : ∀ entry ∈ extra, entry.1 ∈ methodVariables) :
    D.Holds (R.applyValue ev function call args env extra) := by
  unfold Restraint.applyValue
  split
  · exact holds_invoke h _ _ _ hargs hextra
  · exact holds_runSpecial h _ _ _
  · exact (holds_forceArgs h args).andThen fun _ => holds_runEager h _ _ _
  · exact holds_fail _

end

end Discipline

end CallByNeed
