import CallByNeed.Proofs.Dangling.Actions

/-!
# Evaluation is safe

Given an evaluator that carries out every admitted task safely, each rule of
evaluation is safe: what it hands on, binds and answers it has from the session,
from the task or from another task, and all of that is admitted.
-/

namespace CallByNeed

open Session

/-- The session admits what the task is about. -/
def Session.AdmitsTask (s : Session) : Task → Prop
  | .evaluate expr env => s.Admits expr ∧ s.heap.contains env = true
  | .apply function call args env extra =>
    s.Admits function ∧ s.Admits (.call call) ∧ s.AdmitsArgs args ∧ s.heap.contains env = true ∧
      ∀ entry ∈ extra, s.Admits entry.2
  | .loop call env _ sequence body =>
    s.Admits (.call call) ∧ s.heap.contains env = true ∧ s.Admits sequence ∧ s.Admits body

namespace Evaluator

/-- The evaluator carries out every admitted task safely. -/
def IsSafe (ev : Evaluator) : Prop :=
  ∀ task s, s.Safe → s.AdmitsTask task → SafeAt s (ev task) Admits

variable {ev : Evaluator} (hev : ev.IsSafe) {s : Session} (hs : s.Safe) {env : EnvId}
  (henv : s.heap.contains env = true) {v : Value} {args : ArgList} {call : Call}
include hev hs

/-! ## Tasks -/

include henv in
theorem safe_evaluate (hv : s.Admits v) : SafeAt s (ev.evaluate v env) Admits :=
  hev (.evaluate v env) s hs ⟨hv, henv⟩

include henv in
theorem safe_apply {function : Value} (hfunction : s.Admits function)
    (hcall : s.Admits (.call call)) (hargs : s.AdmitsArgs args) {extra : List (Symbol × Value)}
    (hextra : ∀ entry ∈ extra, s.Admits entry.2) :
    SafeAt s (ev (.apply function call args env extra)) Admits :=
  hev (.apply function call args env extra) s hs ⟨hfunction, hcall, hargs, henv, hextra⟩

/-! ## Promises and functions by name -/

theorem safe_demand {id : PromiseId} (hid : s.Admits (.promise id)) :
    SafeAt s (ev.demand id) Admits := by
  rcases hp : s.promises.get? id with _ | ⟨expr, ⟨env, _ | _⟩ | value⟩
  · refine .of_error (ev.demand_run_recursive ?_ ?_) (.refl hs) rfl <;>
    · intro _ _ h
      cases hp.symm.trans h
  · -- the promise is marked while its expression is evaluated
    have hpromise := admits_promise.1 hid _ hp
    have hmark := hs.onward_mark id true
    obtain ⟨honward, hvalue, hraises⟩ := safe_evaluate hev hmark.safe
      (hmark.live (hpromise.env rfl)) (hmark.admits hpromise.expr)
    have hrun := ev.demand_run_waiting hp
    rcases hy : ev.evaluate expr env (s.mark id true) with ⟨e | value, t⟩ <;>
      rw [hy] at hrun honward hvalue hraises
    · have hunmark := honward.safe.onward_mark id false
      exact .of_error hrun ((hmark.trans honward).trans hunmark) (hunmark.lets (hraises e rfl))
    · have hunmark := honward.safe.onward_mark id false
      have hkeep := hunmark.safe.onward_keep id (hunmark.admits (hvalue value rfl))
      refine .of_ok hrun (((hmark.trans honward).trans hunmark).trans hkeep) ?_
      exact hkeep.admits (hunmark.admits (hvalue value rfl))
  · refine .of_error (ev.demand_run_recursive ?_ ?_) (.refl hs) rfl <;>
    · intro _ _ h
      cases hp.symm.trans h
  · exact .of_ok (ev.demand_run_kept hp) (.refl hs) ((admits_promise.1 hid _ hp).value rfl)

theorem safe_force (hv : s.Admits v) : SafeAt s (ev.force v) Admits := by
  cases v with
  | promise id => exact safe_demand hev hs hv
  | _ => exact .pure hs hv

include henv in
theorem safe_lookup (name : Symbol) : SafeAt s (ev.lookup env name) Admits :=
  (reads_lookup hs henv name).andThen hs fun _ hv => safe_force hev hs hv

theorem safe_functionWithin (name : Symbol) (fuel : Nat) {start : Option EnvId}
    (hstart : ∀ id ∈ start, s.heap.contains id = true) :
    SafeAt s (ev.functionWithin name fuel start) fun t found => ∀ f ∈ found, t.Admits f := by
  induction fuel generalizing s start with
  | zero =>
    cases start with
    | none => exact .pure hs fun _ h => nomatch h
    | some id => exact .exhausted hs
  | succ fuel ih =>
    cases start with
    | none => exact .pure hs fun _ h => nomatch h
    | some id =>
      refine (reads_frame (hstart id rfl)).andThen hs fun frame hframe => ?_
      have hparent := hs.parent hframe
      split
      · rename_i binding hbinding
        refine (safe_force hev hs (hs.binding hframe hbinding)).bind fun value t ht hvalue => ?_
        refine .ite (fun _ => .pure ht.safe fun f hf => ?_) fun _ => ?_
        · cases hf
          exact hvalue
        · exact ih ht.safe fun id hid => ht.live (hparent id hid)
      · exact ih hs hparent

include henv in
theorem safe_function? (name : Symbol) :
    SafeAt s (ev.function? env name) fun t found => ∀ f ∈ found, t.Admits f := by
  refine (Reads.get (P := fun _ => True) trivial).andThen hs fun _ _ => ?_
  refine safe_functionWithin hev hs name _ fun id hid => ?_
  cases hid
  exact henv

include henv in
theorem safe_requireFunction (name : Symbol) :
    SafeAt s (ev.requireFunction env name) Admits := by
  refine (safe_function? hev hs henv name).bind fun found t ht hfound => ?_
  cases found with
  | some function => exact .pure ht.safe (hfound function rfl)
  | none => exact .fail ht.safe rfl

/-! ## Arguments -/

theorem safe_forceArg {arg : Arg Value} (harg : s.Admits arg.value) :
    SafeAt s (ev.forceArg arg) fun t arg => t.Admits arg.value :=
  .ite (fun _ => .pure hs harg) fun _ =>
    (safe_force hev hs harg).bind fun _ _ ht hv => .pure ht.safe hv

theorem safe_forceArgs (hargs : s.AdmitsArgs args) :
    SafeAt s (args.mapM ev.forceArg) AdmitsArgs :=
  .mapM hs (fun h => h.admits) fun arg harg _ ht =>
    safe_forceArg hev ht.safe (ht.admits (hargs arg harg))

include henv in
theorem safe_argValues (hargs : s.AdmitsArgs args) :
    SafeAt s (ev.argValues args env) AdmitsArgs := by
  induction args generalizing s with
  | nil => exact .pure hs admitsArgs_nil
  | cons arg rest ih =>
    rw [admitsArgs_cons] at hargs
    have hrest {evaluated : ArgList} {t : Session} (ht : s.Onward t)
        (hevaluated : t.AdmitsArgs evaluated) :
        SafeAt t (do return evaluated ++ (← ev.argValues rest env)) AdmitsArgs :=
      (ih ht.safe (ht.live henv) (ht.args hargs.2)).bind fun more u hu hmore =>
        .pure hu.safe (admitsArgs_append.2 ⟨hu.args hevaluated, hmore⟩)
    refine .ite (fun _ => ?_) fun _ => .ite (fun _ => ?_) fun _ => ?_
    · refine (reads_ellipsisArgs hs henv).andThen hs fun dots hdots => ?_
      exact (safe_forceArgs hev hs hdots).bind fun _ _ ht => hrest ht
    · refine (SafeAt.pure hs ?_).bind fun _ _ ht => hrest ht
      exact admitsArgs_cons.2 ⟨hargs.1, admitsArgs_nil⟩
    · refine (safe_evaluate hev hs henv hargs.1).bind fun value t ht hvalue => ?_
      refine (SafeAt.pure ht.safe ?_).bind fun _ _ hu => hrest (ht.trans hu)
      exact admitsArgs_cons.2 ⟨hvalue, admitsArgs_nil⟩

/-! ## Invocations -/

omit hev in
theorem safe_withInvocation {i : Invocation} {x : SessionM Value} (hi : s.AdmitsInvocation i)
    (hx : ∀ t, s.Onward t → SafeAt t x Admits) :
    SafeAt s (SessionM.withInvocation i x) Admits := by
  by_cases hroom : s.depth < s.options.maxCallDepth
  -- entering and leaving move the stack only, whose frames are admitted
  · have henter := hs.onward_enter hi
    obtain ⟨honward, hvalue, hraises⟩ := hx _ henter
    have hleave := honward.safe.onward_leave
    constructor <;> rw [SessionM.withInvocation_run i x hroom]
    case onward => exact (henter.trans honward).trans hleave
    case value => exact fun a ha => hleave.admits (hvalue a ha)
    case raises => exact fun e he => hleave.lets (hraises e he)
  · have hfull : s.options.maxCallDepth ≤ s.depth := by omega
    exact .of_error (SessionM.withInvocation_run_full i x hfull) (.refl hs) rfl

omit hev hs in
theorem safe_catchReturn {x : SessionM Value} (hx : SafeAt s x Admits) (env : EnvId) :
    SafeAt s (SessionM.catchReturn env x) Admits := by
  obtain ⟨honward, hvalue, hraises⟩ := hx
  rcases hrun : x s with ⟨outcome, t⟩
  rw [hrun] at honward hvalue hraises
  by_cases hcaught : ∃ value, outcome = .error (.returning env value)
  · obtain ⟨value, rfl⟩ := hcaught
    exact .of_ok (SessionM.catchReturn_run_caught hrun) honward (hraises _ rfl)
  · constructor <;>
      rw [SessionM.catchReturn_run_passed hrun fun value he => hcaught ⟨value, he⟩]
    case onward => exact honward
    case value => exact hvalue
    case raises => exact hraises

include henv in
theorem safe_invoke {closure : Closure} (hclosure : s.Admits (.closure closure))
    (hcall : s.Admits (.call call)) (hargs : s.AdmitsArgs args) {extra : List (Symbol × Value)}
    (hextra : ∀ entry ∈ extra, s.Admits entry.2) :
    SafeAt s (ev.invoke closure env call args extra) Admits := by
  obtain ⟨hhome, hformals, hbody⟩ := admits_closure.1 hclosure
  refine (safe_allocate hs hhome).bind fun frame t ht hframe => ?_
  refine safe_withInvocation ht.safe ⟨hframe, ht.live henv, ht.admits hclosure, ht.admits hcall,
    ht.args hargs⟩ fun u hu => ?_
  have hsu := ht.trans hu
  refine (safe_bindArguments hu.safe (hu.live hframe) (hsu.args hformals)
    (hsu.args hargs)).bind fun _ w hw _ => ?_
  have hsw := hsu.trans hw
  have hframe := hw.live (hu.live hframe)
  -- what a method is told about its selection is bound beside the arguments
  refine SafeAt.bind (P := fun _ _ => True) (.forM hw.safe fun (name, value) hmem r hr => ?_)
    fun _ r hr _ => ?_
  · exact safe_bindIn hr.safe (hr.live hframe) name (hr.admits (hsw.admits (hextra _ hmem)))
  · exact safe_catchReturn (safe_evaluate hev hr.safe (hr.live hframe)
      (hr.admits (hsw.admits hbody))) frame

/-! ## Methods -/

include henv in
theorem safe_genericEnv (generic : String) :
    SafeAt s (ev.genericEnv generic env) fun t found =>
      ∀ id ∈ found, t.heap.contains id = true := by
  refine (Reads.get (P := (s = ·)) rfl).andThen hs fun _ hsame => ?_
  subst hsame
  refine .ite (fun _ => .pure hs fun id hid => ?_) fun _ => ?_
  · cases hid
    exact hs.registryBase
  · refine (safe_function? hev hs henv _).bind fun found t ht hfound => ?_
    split
    · exact .pure ht.safe fun _ h => nomatch h
    · refine .pure ht.safe fun id hid => ?_
      cases hid
      exact (admits_closure.1 (hfound _ rfl)).1
    · refine .pure ht.safe fun id hid => ?_
      cases hid
      exact ht.live hs.registryBase
    · exact .fail ht.safe rfl

include henv in
theorem safe_methodOf (hv : s.Admits v) : SafeAt s (ev.methodOf v env) Admits := by
  refine .ite (fun _ => .pure hs hv) fun _ => ?_
  split
  · exact safe_requireFunction hev hs henv _
  · exact .fail hs rfl

include henv in
theorem safe_registerMethodFrom (generic className : String) (hv : s.Admits v) :
    SafeAt s (ev.registerMethodFrom generic className v env) fun _ _ => True := by
  refine (safe_genericEnv hev hs henv generic).bind fun found t ht hfound => ?_
  cases found with
  | none => exact .fail ht.safe rfl
  | some definitionEnv =>
    refine (safe_methodOf hev ht.safe (ht.live henv) (ht.admits hv)).bind
      fun method u hu hmethod => ?_
    exact safe_registerMethod hu.safe generic className hmethod (hu.live (hfound _ rfl))

include henv in
theorem safe_method? (name : Symbol) {table : Option EnvId}
    (htable : ∀ id ∈ table, s.heap.contains id = true) :
    SafeAt s (ev.method? name env table) fun t found => ∀ f ∈ found, t.Admits f := by
  refine (safe_function? hev hs henv name).bind fun found t ht hfound => ?_
  split
  · exact .pure ht.safe hfound
  · exact .pure ht.safe fun _ h => nomatch h
  · refine (reads_getLocal ht.safe (ht.live (htable _ rfl)) name).andThen ht.safe
      fun registered hregistered => ?_
    cases registered with
    | none => exact .pure ht.safe fun _ h => nomatch h
    | some value =>
      refine (safe_force hev ht.safe (hregistered value rfl)).bind fun value u hu hvalue => ?_
      refine .pure hu.safe fun f hf => ?_
      split at hf
      · cases hf
        exact hvalue
      · cases hf

include henv in
theorem safe_methodForClasses (generic : String) {table : Option EnvId}
    (htable : ∀ id ∈ table, s.heap.contains id = true) (classes : List String) :
    SafeAt s (ev.methodForClasses generic env table classes) fun t found =>
      ∀ selected ∈ found, t.Admits selected.method := by
  induction classes generalizing s with
  | nil => exact .pure hs fun _ h => nomatch h
  | cons className rest ih =>
    refine (safe_method? hev hs henv _ htable).bind fun found t ht hfound => ?_
    cases found with
    | some method =>
      refine .pure ht.safe fun selected hselected => ?_
      cases hselected
      exact hfound method rfl
    | none => exact ih ht.safe (ht.live henv) fun id hid => ht.live (htable id hid)

include henv in
theorem safe_methodOrDefault (generic : String) (classes : List String) {table : Option EnvId}
    (htable : ∀ id ∈ table, s.heap.contains id = true) :
    SafeAt s (ev.methodOrDefault generic classes env table) fun t found =>
      ∀ selected ∈ found, t.Admits selected.method := by
  refine (safe_methodForClasses hev hs henv generic htable classes).bind fun found t ht hfound => ?_
  cases found with
  | some selected => exact .pure ht.safe hfound
  | none =>
    refine (safe_method? hev ht.safe (ht.live henv) _ fun id hid => ht.live (htable id hid)).bind
      fun method u hu hmethod => .pure hu.safe fun selected hselected => ?_
    obtain ⟨f, hf, rfl⟩ := Option.map_eq_some_iff.1 hselected
    exact hmethod f hf

include henv in
theorem safe_selectMethod (generic : String) (classes : List String)
    {definitionEnv : Option EnvId}
    (hdefinition : ∀ id ∈ definitionEnv, s.heap.contains id = true) :
    SafeAt s (ev.selectMethod generic classes env definitionEnv) fun t found =>
      ∀ selected ∈ found, t.Admits selected.method := by
  cases definitionEnv with
  | some definitionEnv =>
    exact (reads_methodsTable hs (hdefinition _ rfl)).andThen hs fun table htable =>
      safe_methodOrDefault hev hs henv generic classes htable
  | none => exact safe_methodOrDefault hev hs henv generic classes fun _ h => nomatch h

include henv in
theorem safe_receiver (formals : ArgList) : SafeAt s (ev.receiver formals env) Admits := by
  unfold receiver
  split
  · exact .pure hs admits_null
  · refine (reads_getLocal hs henv _).andThen hs fun found hfound => ?_
    split
    · exact .pure hs admits_null
    · rename_i value
      have hvalue := hfound value rfl
      refine .ite (fun _ => ?_) fun _ => .ite (fun _ => .fail hs rfl) fun _ =>
        safe_force hev hs hvalue
      split
      · rw [admits_dots, admitsArgs_cons] at hvalue
        exact safe_force hev hs hvalue.1
      · exact .pure hs admits_null

include henv in
theorem safe_firstMethod {table : Option EnvId}
    (htable : ∀ id ∈ table, s.heap.contains id = true) (names : List Symbol) :
    SafeAt s (ev.firstMethod env table names) fun t found => ∀ f ∈ found, t.Admits f := by
  induction names generalizing s with
  | nil => exact .pure hs fun _ h => nomatch h
  | cons name rest ih =>
    refine (safe_method? hev hs henv name htable).bind fun found t ht hfound => ?_
    cases found with
    | some method => exact .pure ht.safe hfound
    | none => exact ih ht.safe (ht.live henv) fun id hid => ht.live (htable id hid)

include henv in
theorem safe_dispatchOperator (op : String) (hargs : s.AdmitsArgs args) :
    SafeAt s (ev.dispatchOperator op env args) fun t found => ∀ v ∈ found, t.Admits v := by
  refine (Reads.get (P := (s = ·)) rfl).andThen hs fun _ hsame => ?_
  subst hsame
  refine (reads_methodsTable hs hs.registryBase).andThen hs fun table htable => ?_
  refine (safe_firstMethod hev hs henv htable _).bind fun found t ht hfound => ?_
  cases found with
  | none => exact .pure ht.safe fun _ h => nomatch h
  | some method =>
    refine SafeAt.bind (P := AdmitsArgs) (.mapM ht.safe (fun h => h.admits) ?_)
      fun promised u hu hpromised => ?_
    · intro arg harg u hu
      have hvalue := hu.admits (ht.admits (hargs arg harg))
      exact (safe_newKept hu.safe hvalue hvalue).bind fun _ _ hw hpromise => .pure hw.safe hpromise
    · have hsu := ht.trans hu
      refine (safe_newCall hu.safe (admits_symbol _) (hsu.args hargs)).bind
        fun call w hw hcall => ?_
      refine (safe_newBare hw.safe _).bind fun generic r hr hgeneric => ?_
      have hur := hw.trans hr
      refine (safe_apply hev hr.safe (hur.live (hsu.live henv))
        (hur.admits (hu.admits (hfound method rfl))) (hr.admits hcall) (hur.args hpromised)
        ?_).bind fun value q hq hvalue => ?_
      · intro entry hentry
        cases List.mem_singleton.1 hentry
        exact hgeneric
      · refine .pure hq.safe fun v hv => ?_
        cases hv
        exact hvalue

omit hev in
theorem safe_classesValue (classes : List String) : SafeAt s (classesValue classes) Admits :=
  .ite (fun _ => .pure hs admits_null) fun _ => safe_newBare hs _

theorem safe_applyMethod (generic : String) (object : Value) {invocation : Invocation}
    (hinvocation : s.AdmitsInvocation invocation) (env : EnvId) :
    SafeAt s (ev.applyMethod generic object invocation env) Admits := by
  refine (safe_genericEnv hev hs hinvocation.callerEnv generic).bind fun found t ht hfound => ?_
  have ht' := ht.invocation hinvocation
  have hdefinition : ∀ id ∈ some (found.getD invocation.closure.env),
      t.heap.contains id = true := by
    intro id hid
    cases hid
    cases found with
    | none => exact (admits_closure.1 ht'.closure).1
    | some definitionEnv => exact hfound _ rfl
  refine (safe_selectMethod hev ht.safe ht'.callerEnv generic _ hdefinition).bind
    fun selected u hu hselected => ?_
  cases selected with
  | none => exact .fail hu.safe rfl
  | some selected =>
    refine (safe_newBare hu.safe _).bind fun name w hw hname => ?_
    refine (safe_classesValue hw.safe _).bind fun classes r hr hclasses => ?_
    have hur := hw.trans hr
    have hr' := hur.invocation (hu.invocation ht')
    refine (safe_apply hev hr.safe hr'.callerEnv (hur.admits (hselected selected rfl)) hr'.call
      hr'.args ?_).bind fun value q hq hvalue => ?_
    · intro entry hentry
      simp only [List.mem_cons, List.not_mem_nil, or_false] at hentry
      obtain rfl | rfl := hentry
      · exact hr.admits hname
      · exact hclasses
    · exact .of_error rfl (.refl hq.safe) hvalue

theorem safe_useMethod (generic : String) (object : Option Value) (env : EnvId) :
    SafeAt s (ev.useMethod generic object env) Admits := by
  refine (Reads.get (P := (s = ·)) rfl).andThen hs fun _ hsame => ?_
  subst hsame
  split
  · exact .fail hs rfl
  · rename_i invocation hfound
    have hi := hs.invocation (List.mem_of_find?_eq_some hfound)
    have henv : invocation.env = env := by simpa using List.find?_some hfound
    cases object with
    | some object => exact safe_applyMethod hev hs generic object hi env
    | none =>
      refine (safe_receiver hev hs (henv ▸ hi.env) _).bind fun object t ht _ => ?_
      exact safe_applyMethod hev ht.safe generic object (ht.invocation hi) env

/-! ## Special forms -/

include henv in
theorem safe_evaluateBlock (hargs : s.AdmitsArgs args) (hv : s.Admits v) :
    SafeAt s (ev.evaluateBlock env args v) Admits := by
  induction args generalizing s v with
  | nil => exact .pure hs hv
  | cons arg rest ih =>
    rw [admitsArgs_cons] at hargs
    refine (safe_evaluate hev hs henv hargs.1).bind fun value t ht hvalue => ?_
    exact ih ht.safe (ht.live henv) (ht.args hargs.2) hvalue

include henv in
theorem safe_assign (hargs : s.AdmitsArgs call.args) : SafeAt s (ev.assign call env) Admits := by
  refine (reads_twoArgs hargs .assign).andThen hs fun (target, expr) ⟨_, hexpr⟩ => ?_
  refine (reads_assignmentTarget target).andThen hs fun name _ => ?_
  refine (safe_evaluate hev hs henv hexpr).bind fun value t ht hvalue => ?_
  refine (safe_bindIn ht.safe (ht.live henv) name hvalue).bind fun _ u hu _ => ?_
  exact .pure hu.safe (hu.admits hvalue)

include henv in
theorem safe_assignOuter (hargs : s.AdmitsArgs call.args) :
    SafeAt s (ev.assignOuter call env) Admits := by
  refine (reads_twoArgs hargs .assignOuter).andThen hs fun (target, expr) ⟨_, hexpr⟩ => ?_
  refine (reads_assignmentTarget target).andThen hs fun name _ => ?_
  refine (safe_evaluate hev hs henv hexpr).bind fun value t ht hvalue => ?_
  refine (Reads.get (P := (t = ·)) rfl).andThen ht.safe fun _ hsame => ?_
  subst hsame
  refine (safe_assignNonLocal ht.safe (ht.live henv) name hvalue).bind fun _ u hu _ => ?_
  exact .pure hu.safe (hu.admits hvalue)

include henv in
theorem safe_ifElse (hargs : s.AdmitsArgs call.args) : SafeAt s (ev.ifElse call env) Admits := by
  refine (reads_requireArity call .ifElse 2 3).andThen hs fun _ _ => ?_
  split
  · rename_i condition consequence alternative hcall
    simp only [hcall, admitsArgs_cons] at hargs
    obtain ⟨hcondition, hconsequence, halternative⟩ := hargs
    refine (safe_evaluate hev hs henv hcondition).bind fun value t ht _ => ?_
    split
    · exact .fail ht.safe rfl
    · exact safe_evaluate hev ht.safe (ht.live henv) (ht.admits hconsequence)
    · cases alternative with
      | nil => exact .pure ht.safe admits_null
      | cons alternative _ =>
        rw [admitsArgs_cons] at halternative
        exact safe_evaluate hev ht.safe (ht.live henv) (ht.admits halternative.1)
  · exact .pure hs admits_null

include henv in
theorem safe_forLoop (hcall : s.Admits (.call call)) : SafeAt s (ev.forLoop call env) Admits := by
  have hargs := (admits_call.1 hcall).2
  unfold forLoop
  split
  · rename_i counter sequence body hform
    simp only [hform, admitsArgs_cons] at hargs
    obtain ⟨-, hsequence, hbody, -⟩ := hargs
    split
    · refine (safe_evaluate hev hs henv hsequence).bind fun value t ht hvalue => ?_
      exact hev (.loop call env _ value body.value) t ht.safe
        ⟨ht.admits hcall, ht.live henv, hvalue, ht.admits hbody⟩
    · exact .fail hs rfl
  · exact .fail hs rfl

include henv in
theorem safe_evaluateFirst (hargs : s.AdmitsArgs args) :
    SafeAt s (ev.evaluateFirst args env) Admits := by
  cases args with
  | nil => exact .pure hs admits_null
  | cons arg _ =>
    rw [admitsArgs_cons] at hargs
    exact safe_evaluate hev hs henv hargs.1

include henv in
theorem safe_returnValue (hargs : s.AdmitsArgs call.args) :
    SafeAt s (ev.returnValue call env) Admits := by
  refine (reads_requireArity call .returnValue 0 1).andThen hs fun _ _ => ?_
  refine (safe_evaluateFirst hev hs henv hargs).bind fun value t ht hvalue => ?_
  refine (Reads.get (P := fun _ => True) trivial).andThen ht.safe fun _ _ => ?_
  exact .ite (fun _ => .of_error rfl (.refl ht.safe) hvalue) fun _ => .fail ht.safe rfl

include henv in
theorem safe_useMethodForm (hargs : s.AdmitsArgs call.args) :
    SafeAt s (ev.useMethodForm call env) Admits := by
  refine (reads_requireArity call .useMethod 1 2).andThen hs fun _ _ => ?_
  refine (safe_evaluateFirst hev hs henv hargs).bind fun generic t ht _ => ?_
  refine (reads_nameArg _ _).andThen ht.safe fun generic _ => ?_
  split
  · rename_i x object hform
    simp only [hform, admitsArgs_cons] at hargs
    refine (safe_evaluate hev ht.safe (ht.live henv) (ht.admits hargs.2.1)).bind
      fun object u hu _ => ?_
    exact safe_useMethod hev hu.safe generic (some object) env
  · exact safe_useMethod hev ht.safe generic none env

include henv in
theorem safe_runSpecial (form : SpecialForm) (hcall : s.Admits (.call call)) :
    SafeAt s (ev.runSpecial form call env) Admits := by
  have hargs := (admits_call.1 hcall).2
  cases form with
  | quote => exact (reads_oneArg hargs .quote).safeAt hs
  | function => exact safe_makeFunction hs hargs henv
  | assign => exact safe_assign hev hs henv hargs
  | assignEquals => exact safe_assign hev hs henv hargs
  | assignOuter => exact safe_assignOuter hev hs henv hargs
  | block => exact safe_evaluateBlock hev hs henv hargs admits_null
  | ifElse => exact safe_ifElse hev hs henv hargs
  | forLoop => exact safe_forLoop hev hs henv hcall
  | returnValue => exact safe_returnValue hev hs henv hargs
  | missing => exact safe_missingForm hs hargs henv
  | useMethod => exact safe_useMethodForm hev hs henv hargs
  | receivedCall =>
    refine .pure hs (admits_list.2 ?_)
    simp only [admitsArgs_cons, admitsArgs_nil, and_true]
    exact ⟨hcall, admits_environment.2 henv⟩

/-! ## Builtins -/

include henv in
theorem safe_registerMethodBuiltin (hargs : s.AdmitsArgs args) :
    SafeAt s (ev.registerMethodBuiltin args env) Admits := by
  refine (reads_argsByName hargs _).andThen hs fun values hvalues => ?_
  refine (reads_requireArg _ hvalues 0).andThen hs fun generic _ => ?_
  refine (reads_nameArg _ _).andThen hs fun generic _ => ?_
  refine (reads_requireArg _ hvalues 1).andThen hs fun className _ => ?_
  refine (reads_nameArg _ _).andThen hs fun className _ => ?_
  refine (reads_requireArg _ hvalues 2).andThen hs fun method hmethod => ?_
  refine (reads_environmentArg henv hvalues 3).andThen hs fun env henv => ?_
  exact (safe_registerMethodFrom hev hs henv generic className hmethod).bind fun _ t ht _ =>
    .pure ht.safe admits_null

include henv in
theorem safe_runNamespaceQuery (query : NamespaceQuery) (hargs : s.AdmitsArgs args) :
    SafeAt s (ev.runNamespaceQuery query args env) Admits := by
  have honly := reads_onlyArg hargs query.name
  cases query with
  | registerMethod => exact safe_registerMethodBuiltin hev hs henv hargs
  | load =>
    refine (honly "name").andThen hs fun _ _ => (reads_nameArg _ _).andThen hs fun name _ => ?_
    exact (safe_loadNamespace hs _).bind fun ns t ht hns =>
      .pure ht.safe (admits_environment.2 hns)
  | isNamespace =>
    refine (honly "ns").andThen hs fun value _ => ?_
    split
    · exact (Reads.get (P := fun _ => True) trivial).andThen hs fun _ _ => safe_newBare hs _
    · exact safe_newBare hs _
  | loaded => exact (Reads.get (P := fun _ => True) trivial).andThen hs fun _ _ => safe_newBare hs _
  | nameOf =>
    refine (honly "ns").andThen hs fun value _ => ?_
    exact (safe_namespaceOf hs value).bind fun ns t ht _ => safe_namespaceName ht.safe ns
  | exportsOf =>
    refine (honly "ns").andThen hs fun value _ => ?_
    exact (safe_namespaceOf hs value).bind fun ns t ht _ => safe_newBare ht.safe _
  | importsOf =>
    refine (honly "ns").andThen hs fun value _ => ?_
    refine (safe_namespaceOf hs value).bind fun ns t ht _ => ?_
    refine (Reads.get (P := fun _ => True) trivial).andThen ht.safe fun _ _ => ?_
    refine (Reads.ofExcept (P := fun _ => True) (plain_imports _ _) fun _ _ => trivial).andThen
      ht.safe fun _ _ => ?_
    exact .pure ht.safe admits_null
  | lookUp =>
    refine (honly "name").andThen hs fun _ _ => (reads_nameArg _ _).andThen hs fun name _ => ?_
    refine (Reads.get (P := (s = ·)) rfl).andThen hs fun _ hsame => ?_
    subst hsame
    split
    · rename_i id hid
      exact .pure hs (admits_environment.2 (hs.registered? hid))
    · exact .pure hs admits_null

include henv in
theorem safe_runArithmetic (op : BinaryOp) (hargs : s.AdmitsArgs args) :
    SafeAt s (ev.runArithmetic op args env) Admits := by
  refine (safe_dispatchOperator hev hs henv op.spelling hargs).bind fun found t ht hfound => ?_
  cases found with
  | some value => exact .pure ht.safe (hfound value rfl)
  | none =>
    exact safe_deliver ht.safe (Builtin.plain_arithmetic op args)
      (yields_arithmetic op (ht.args hargs))

include henv in
theorem safe_runEager {builtin : EagerBuiltin} (hquiet : builtin ≠ .introspect .collect)
    (hargs : s.AdmitsArgs args) : SafeAt s (ev.runEager builtin args env) Admits := by
  cases builtin with
  | arithmetic op => exact safe_runArithmetic hev hs henv op hargs
  | compare op => exact safe_deliver hs (Builtin.plain_compare _ _) (yields_compare _ _)
  | sequence => exact safe_deliver hs (Builtin.plain_sequence _) (yields_sequence _)
  | combine => exact safe_deliver hs (Builtin.plain_combine _) (yields_combine _)
  | length => exact safe_deliver hs (Builtin.plain_length _) (yields_length _)
  | math f => exact safe_deliver hs (Builtin.plain_math _ _) (yields_math f hargs)
  | reduce op => exact safe_deliver hs (Builtin.plain_reduce _ _) (yields_reduce _ _)
  | margin op => exact safe_deliver hs (Builtin.plain_margin _ _) (yields_margin _ _)
  | withAttributes =>
    exact safe_deliver hs (Builtin.plain_withAttributes _) (yields_withAttributes hargs)
  | attributeOf => exact safe_deliver hs (Builtin.plain_attributeOf _) (yields_attributeOf hargs)
  | classOf => exact safe_deliver hs (Builtin.plain_classOf _) (yields_classOf hargs)
  | environmentOf =>
    exact safe_deliver hs (Builtin.plain_environmentOf _ _) (yields_environmentOf hargs henv)
  | namespaces query => exact safe_runNamespaceQuery hev hs henv query hargs
  | introspect query =>
    exact safe_introspect hs (fun hquery => hquiet (congrArg _ hquery)) hargs env

/-! ## Expressions -/

include henv in
theorem safe_evaluateSymbol (name : Symbol) : SafeAt s (ev.evaluateSymbol name env) Admits := by
  refine .ite (fun _ => .fail hs rfl) fun _ => .ite (fun _ => .fail hs rfl) fun _ => ?_
  refine (reads_lookup hs henv name).andThen hs fun value hvalue => ?_
  split
  · exact .fail hs rfl
  · refine (safe_force hev hs hvalue).bind fun value t ht hvalue => ?_
    exact .ite (fun _ => .fail ht.safe rfl) fun _ => .pure ht.safe hvalue

include henv in
theorem safe_functionOf (hcall : s.Admits (.call call)) :
    SafeAt s (ev.functionOf call env) Admits := by
  unfold functionOf
  split
  · exact safe_requireFunction hev hs henv _
  · exact safe_evaluate hev hs henv (admits_call.1 hcall).1

include henv in
theorem safe_evaluateCall (hcall : s.Admits (.call call)) :
    SafeAt s (ev.evaluateCall call env) Admits := by
  have hargs := (admits_call.1 hcall).2
  refine (safe_functionOf hev hs henv hcall).bind fun function t ht hfunction => ?_
  have henv := ht.live henv
  split
  · refine (safe_suspendArgs ht.safe (ht.args hargs) henv).bind fun promised u hu hpromised => ?_
    exact safe_invoke hev hu.safe (hu.live henv) (hu.admits hfunction)
      (hu.admits (ht.admits hcall)) hpromised fun _ h => nomatch h
  · exact safe_runSpecial hev ht.safe henv _ (ht.admits hcall)
  · have hquiet := hfunction.builtin
    refine (safe_argValues hev ht.safe henv (ht.args hargs)).bind fun values u hu hvalues => ?_
    exact safe_runEager hev hu.safe (hu.live henv) (fun h => hquiet (congrArg _ h)) hvalues
  · exact .fail ht.safe rfl

include henv in
theorem safe_evaluateExpr (hv : s.Admits v) : SafeAt s (ev.evaluateExpr v env) Admits := by
  unfold evaluateExpr
  split
  · exact safe_evaluateSymbol hev hs henv _
  · exact safe_evaluateCall hev hs henv hv
  · exact safe_demand hev hs hv
  · exact .fail hs rfl
  · exact .pure hs hv

include henv in
theorem safe_applyValue {function : Value} (hfunction : s.Admits function)
    (hcall : s.Admits (.call call)) (hargs : s.AdmitsArgs args)
    {extra : List (Symbol × Value)} (hextra : ∀ entry ∈ extra, s.Admits entry.2) :
    SafeAt s (ev.applyValue function call args env extra) Admits := by
  unfold applyValue
  split
  · exact safe_invoke hev hs henv hfunction hcall hargs hextra
  · exact safe_runSpecial hev hs henv _ hcall
  · have hquiet := hfunction.builtin
    refine (safe_forceArgs hev hs hargs).bind fun values t ht hvalues => ?_
    exact safe_runEager hev ht.safe (ht.live henv) (fun h => hquiet (congrArg _ h)) hvalues
  · exact .fail hs rfl

end Evaluator

end CallByNeed
