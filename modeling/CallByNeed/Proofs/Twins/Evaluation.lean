import CallByNeed.Proofs.Twins.Actions

/-!
# Evaluation keeps twins in step

Given an evaluator that keeps twins in step at every task, so does each rule of
evaluation.  A rule compares environments in a few places only (the frame a return
aims at, the frame of an invocation, the environments of namespaces), and the
bridge pairs no environment with two.
-/

namespace CallByNeed

open Bridge

/-- Tasks of the same kind about related things. -/
inductive Bridge.MatchesTask (b : Bridge) : Task → Task → Prop where
  | evaluate {expr expr' : Value} {env env' : EnvId} (hexpr : b.Clean expr expr')
    (henv : b.Relates env env') : b.MatchesTask (.evaluate expr env) (.evaluate expr' env')
  | apply {function function' : Value} {call call' : Call} {args args' : ArgList}
    {env env' : EnvId} {extra extra' : List (Symbol × Value)}
    (hfunction : b.Clean function function') (hcall : b.Clean call call')
    (hargs : b.Passes args args') (henv : b.Relates env env') (hextra : b.Clean extra extra') :
    b.MatchesTask (.apply function call args env extra) (.apply function' call' args' env' extra')
  | loop {call call' : Call} {env env' : EnvId} (var : Symbol)
    {sequence sequence' body body' : Value} (hcall : b.Clean call call')
    (henv : b.Relates env env') (hsequence : b.Clean sequence sequence')
    (hbody : b.Clean body body') :
    b.MatchesTask (.loop call env var sequence body) (.loop call' env' var sequence' body')

/-- Related methods, selected for the same classes. -/
structure Bridge.Selects (b : Bridge) (m m' : SelectedMethod) : Prop where
  method : b.Clean m.method m'.method
  classes : m'.classes = m.classes

namespace Evaluator

/-- The evaluator keeps all twins in step, whatever the task. -/
def KeepsTwins (ev : Evaluator) : Prop :=
  ∀ (w : Twins) task task', w.bridge.MatchesTask task task' →
    w.Runs (ev task) (ev task') Bridge.Clean

open Twins

variable {ev : Evaluator} (hev : ev.KeepsTwins) {w : Twins} {env env' : EnvId}
  (henv : w.bridge.Relates env env') {v v' : Value} {args args' : ArgList} {call call' : Call}
include hev

/-! ## Tasks -/

include henv in
theorem runs_evaluate (hv : w.bridge.Clean v v') :
    w.Runs (ev.evaluate v env) (ev.evaluate v' env') Bridge.Clean :=
  hev w _ _ (.evaluate hv henv)

/-! ## Promises and functions by name -/

theorem runs_demand {p : PromiseId} (hp : w.bridge.promises p) :
    w.Runs (ev.demand p) (ev.demand p) Bridge.Clean := by
  obtain ⟨⟨expr, state⟩, ⟨expr', state'⟩, hcell, hcell', hclean⟩ := w.matched.promises hp
  have hexpr : w.bridge.Clean expr expr' := hclean.expr
  have hstate : w.bridge.Clean state state' := hclean.state
  cases state with
  | kept value =>
    obtain ⟨value', rfl, hvalue⟩ := relates_kept.1 hstate
    exact .of_run le_rfl (ev.demand_run_kept hcell) (ev.demand_run_kept hcell') (.value hvalue)
  | waiting env underEvaluation =>
    obtain ⟨env', rfl, henv⟩ := relates_waiting.1 hstate
    cases underEvaluation with
    | true =>
      refine .of_run le_rfl (ev.demand_run_recursive ?_ ?_) (ev.demand_run_recursive ?_ ?_)
        (.failure .recursivePromise)
      · exact fun _ _ h => nomatch hcell.symm.trans h
      · exact fun _ _ h => nomatch hcell.symm.trans h
      · exact fun _ _ h => nomatch hcell'.symm.trans h
      · exact fun _ _ h => nomatch hcell'.symm.trans h
    | false =>
      -- the promise is marked on both sides while its expression is evaluated
      let marked : Twins := ⟨w.bridge, _, _, w.matched.mark p true⟩
      have hmarked : w ≤ marked := ⟨le_rfl, .of_eq rfl, .of_eq rfl⟩
      obtain ⟨z, o, o', hz, heval, heval', hends⟩ :=
        runs_evaluate hev (w := marked) (clean_env.1 henv) hexpr
      have hrun := ev.demand_run_waiting hcell
      have hrun' := ev.demand_run_waiting hcell'
      rw [show ev.evaluate expr env (w.left.mark p true) = _ from heval] at hrun
      rw [show ev.evaluate expr' env' (w.right.mark p true) = _ from heval'] at hrun'
      let unmarked : Twins := ⟨z.bridge, _, _, z.matched.mark p false⟩
      have hunmarked : w ≤ unmarked := (hmarked.trans hz).trans ⟨le_rfl, .of_eq rfl, .of_eq rfl⟩
      cases hends with
      | value hvalue =>
        let kept : Twins := ⟨z.bridge, _, _, unmarked.matched.keep p hvalue⟩
        have hkept : w ≤ kept := hunmarked.trans ⟨le_rfl, .of_eq rfl, .of_eq rfl⟩
        exact .of_run hkept hrun hrun' (.value hvalue)
      | failure e => exact .of_run hunmarked hrun hrun' (.failure e)
      | returning htarget hv => exact .of_run hunmarked hrun hrun' (.returning htarget hv)
      | exhausted => exact .of_run hunmarked hrun hrun' .exhausted

/-- What is bound is a promise, or a value that stands for itself. -/
theorem runs_force (hv : w.bridge.Stores v v') :
    w.Runs (ev.force v) (ev.force v') Bridge.Stores := by
  have hrelates := hv.relates
  cases hrelates.alike with
  | promise hp => exact (runs_demand hev hp).weaken fun _ _ _ _ h => h.stores
  | _ => exact .pure hv

theorem runs_forcePassing (hv : w.bridge.Relates v v') (hpassing : w.bridge.Passing v) :
    w.Runs (ev.force v) (ev.force v') Bridge.Clean := by
  obtain hbare | ⟨p, rfl⟩ := hpassing
  · have hclean := hv.clean hbare
    cases hv.alike with
    | promise hp => exact runs_demand hev hp
    | _ => exact .pure hclean
  · obtain ⟨rfl, hp⟩ := relates_promiseValue.1 hv
    exact runs_demand hev hp

include henv in
theorem runs_lookup (name : Symbol) :
    w.Runs (ev.lookup env name) (ev.lookup env' name) Bridge.Stores :=
  (looks_lookup henv name).andThen fun _ _ hv => runs_force hev hv

/-- The heaps may have different numbers of slots; in both of them the way outward ends before the
    steps do. -/
theorem runs_functionWithin (name : Symbol) (n m : Nat) {start start' : Option EnvId}
    (hstart : w.bridge.Relates start start') (hn : w.left.heap.EndsWithin n start)
    (hm : w.right.heap.EndsWithin m start') :
    w.Runs (ev.functionWithin name n start) (ev.functionWithin name m start')
      fun b => Option.Rel b.Clean := by
  induction n generalizing w m start start' with
  | zero =>
    cases start with
    | some id => exact hn.elim
    | none =>
      rw [hstart.of_none]
      cases m <;> exact .pure .none
  | succ n ih =>
    cases start with
    | none =>
      rw [hstart.of_none]
      cases m <;> exact .pure .none
    | some id =>
      obtain ⟨id', rfl, hid⟩ := relates_some.1 hstart
      cases m with
      | zero => exact hm.elim
      | succ m =>
        refine (looks_frame hid).andThen fun f f' ⟨hf, hf', hmatches⟩ => ?_
        have hn := hn f hf
        have hm := hm f' hf'
        have hget := hmatches.get? name
        generalize f.get? name = binding at hget ⊢
        generalize f'.get? name = binding' at hget ⊢
        cases hget with
        | none => exact ih m hmatches.parent hn hm
        | some hbinds =>
          refine (runs_force hev hbinds.stores).bind fun value value' z hz hvalue => ?_
          have hfunction := hvalue.relates.same (f := Value.isFunction)
            fun _ _ => Renaming.isFunction_rename
          -- forcing may have changed the heaps, but the way outward ends within the same steps
          refine .ite (by rw [hfunction]) (fun h => .pure (.some (hvalue.clean_of_isFunction h)))
            fun _ => ih m (hz.relates hmatches.parent) ?_ ?_
          · refine hn.deepens hz.left w.matched.left.parents fun next hnext => ?_
            exact w.matched.left.parents hf hnext
          · refine hm.deepens hz.right w.matched.right.parents fun next hnext => ?_
            exact w.matched.right.parents hf' hnext

include henv in
theorem runs_function? (name : Symbol) :
    w.Runs (ev.function? env name) (ev.function? env' name) fun b => Option.Rel b.Clean :=
  .get_bind (runs_functionWithin hev name _ _ (relates_some.2 ⟨env', rfl, henv⟩)
    (w.matched.left.layered.endsWithin _) (w.matched.right.layered.endsWithin _))

include henv in
theorem runs_requireFunction (name : Symbol) :
    w.Runs (ev.requireFunction env name) (ev.requireFunction env' name) Bridge.Clean := by
  refine (runs_function? hev henv name).bind fun found found' z hz hfound => ?_
  cases hfound with
  | none => exact .fail _
  | some hfunction => exact .pure hfunction

/-! ## Arguments -/

theorem runs_forceArg {arg arg' : Arg Value} (harg : w.bridge.Hands arg arg') :
    w.Runs (ev.forceArg arg) (ev.forceArg arg') Bridge.Clean := by
  unfold forceArg
  rw [harg.relates.tag]
  refine .ite (by rw [harg.relates.value.same fun _ _ => Renaming.isMissingArg_rename])
    (fun hmissing => ?_) fun _ => ?_
  · have hvalue := harg.relates.value
    rw [Value.isMissingArg_iff.1 hmissing] at hvalue ⊢
    rw [relates_symbol.1 hvalue]
    exact .pure (relates_newArg relates_missingArg)
  · exact (runs_forcePassing hev harg.relates.value harg.passing).bind fun _ _ _ _ hv =>
      .pure (relates_newArg hv)

theorem runs_forceArgs (hargs : w.bridge.Passes args args') :
    w.Runs (args.mapM ev.forceArg) (args'.mapM ev.forceArg) Bridge.Clean :=
  (Runs.mapM (fun _ _ _ _ h => .mono h) (fun _ _ _ _ h h' => h'.mono (bare_mono h))
    (fun _ _ _ _ harg => runs_forceArg hev harg) hargs).weaken fun _ _ _ _ =>
      relates_iff_forall₂.2

include henv in
theorem runs_argValues (hargs : w.bridge.Clean args args') :
    w.Runs (ev.argValues args env) (ev.argValues args' env') Bridge.Clean := by
  induction args generalizing w args' with
  | nil =>
    rw [hargs.of_nil]
    exact .pure relates_nil
  | cons arg rest ih =>
    obtain ⟨arg', rest', rfl, harg, hrest⟩ := hargs.of_cons
    -- whatever the first argument came to, the rest follows on the grown bridge
    have hmore {z : Twins} (hz : w ≤ z) {evaluated evaluated' : ArgList}
        (hevaluated : z.bridge.Clean evaluated evaluated') :
        z.Runs (do return evaluated ++ (← ev.argValues rest env))
          (do return evaluated' ++ (← ev.argValues rest' env')) Bridge.Clean :=
      (ih (hz.relates henv) (hz.clean hrest)).bind fun more more' y hy hmore =>
        .pure ((hy.clean hevaluated).append hmore)
    refine .ite (by rw [harg.value.same fun _ _ => Renaming.isEllipsis_rename]) (fun _ => ?_)
      fun _ => .ite (by rw [harg.value.same fun _ _ => Renaming.isMissingArg_rename])
        (fun _ => ?_) fun _ => ?_
    · refine (looks_ellipsisArgs henv).andThen fun dots dots' hdots => ?_
      exact (runs_forceArgs hev hdots).bind fun _ _ z hz => hmore hz
    · exact Runs.bind (R := Bridge.Clean) (.pure (relates_cons.2 ⟨harg, relates_nil⟩))
        fun _ _ z hz => hmore hz
    · refine (runs_evaluate hev henv harg.value).bind fun value value' z hz hvalue => ?_
      refine Runs.bind (R := Bridge.Clean) (.pure ?_) fun _ _ y hy => hmore (hz.trans hy)
      rw [harg.tag]
      exact relates_cons.2 ⟨relates_newArg hvalue, relates_nil⟩

/-! ## Invocations -/

omit hev in
theorem runs_withInvocation {i j : Invocation} (hi : w.bridge.MatchesInvocation i j)
    {x y : SessionM Value} (hx : ∀ z, w ≤ z → z.Runs x y Bridge.Clean) :
    w.Runs (SessionM.withInvocation i x) (SessionM.withInvocation j y) Bridge.Clean := by
  have hdepth : w.right.depth = w.left.depth := w.matched.rest.stack.length_eq.symm
  have hmax := w.matched.rest.maxCallDepth
  by_cases hroom : w.left.depth < w.left.options.maxCallDepth
  · let entered : Twins := ⟨w.bridge, _, _, w.matched.enter hi⟩
    have hentered : w ≤ entered := ⟨le_rfl, .of_eq rfl, .of_eq rfl⟩
    obtain ⟨z, o, o', hz, hrun, hrun', hends⟩ := hx entered hentered
    let left : Twins := ⟨z.bridge, _, _, z.matched.leave⟩
    have hleft : w ≤ left := (hentered.trans hz).trans ⟨le_rfl, .of_eq rfl, .of_eq rfl⟩
    refine ⟨left, o, o', hleft, ?_, ?_, ?_⟩
    · rw [SessionM.withInvocation_run i x hroom,
        show x (w.left.enter i) = _ from hrun]
    · rw [SessionM.withInvocation_run j y (by omega), show y (w.right.enter j) = _ from hrun']
    · exact hends
  · have hfull := SessionM.withInvocation_run_full (s := w.right) j y (by omega)
    rw [hdepth] at hfull
    exact .of_run le_rfl (SessionM.withInvocation_run_full i x (by omega)) hfull (.failure _)

omit hev in
include henv in
theorem runs_catchReturn {x y : SessionM Value} (hx : w.Runs x y Bridge.Clean) :
    w.Runs (SessionM.catchReturn env x) (SessionM.catchReturn env' y) Bridge.Clean := by
  obtain ⟨z, o, o', hz, hrun, hrun', hends⟩ := hx
  cases hends with
  | value h =>
    exact .of_run hz (SessionM.catchReturn_run_passed hrun fun _ h => nomatch h)
      (SessionM.catchReturn_run_passed hrun' fun _ h => nomatch h) (.value h)
  | failure e =>
    exact .of_run hz (SessionM.catchReturn_run_passed hrun fun _ h => nomatch h)
      (SessionM.catchReturn_run_passed hrun' fun _ h => nomatch h) (.failure e)
  | exhausted =>
    exact .of_run hz (SessionM.catchReturn_run_passed hrun fun _ h => nomatch h)
      (SessionM.catchReturn_run_passed hrun' fun _ h => nomatch h) .exhausted
  | @returning target target' v v' htarget hv =>
    -- the return aims at the invocation on one side exactly if it does on the other
    have hiff := eq_iff_eq htarget (hz.relates henv)
    by_cases hsame : target = env
    · obtain rfl := hiff.2 hsame
      subst hsame
      exact .of_run hz (SessionM.catchReturn_run_caught hrun)
        (SessionM.catchReturn_run_caught hrun') (.value hv)
    · refine .of_run hz (SessionM.catchReturn_run_passed hrun fun _ h => ?_)
        (SessionM.catchReturn_run_passed hrun' fun _ h => ?_) (.returning htarget hv)
      · cases h
        exact hsame rfl
      · cases h
        exact hsame (hiff.1 rfl)

include henv in
theorem runs_invoke {closure closure' : Closure} (hclosure : w.bridge.Clean closure closure')
    (hcall : w.bridge.Clean call call') (hargs : w.bridge.Passes args args')
    {extra extra' : List (Symbol × Value)} (hextra : w.bridge.Clean extra extra') :
    w.Runs (ev.invoke closure env call args extra) (ev.invoke closure' env' call' args' extra')
      Bridge.Clean := by
  refine (runs_allocate (clean_env.1 hclosure.env)).bind fun frame frame' z hz hframe => ?_
  refine runs_withInvocation ⟨hframe, hz.relates henv, hz.clean hclosure, hz.clean hcall,
    hz.passes hargs⟩ fun y hy => ?_
  have hwy := hz.trans hy
  refine (runs_bindArguments (hy.relates hframe) (hwy.clean hclosure.formals)
    (hwy.passes hargs)).bind fun _ _ x hx _ => ?_
  have hwx := hwy.trans hx
  have hframe := hx.relates (hy.relates hframe)
  refine Runs.bind (.forM (P := Bridge.Clean) (fun _ _ _ _ h h' => h'.mono (bare_mono h))
    (fun entry entry' u hu hentry => ?_) (relates_iff_forall₂.1 (hwx.clean hextra)))
    fun _ _ u hu _ => ?_
  · obtain ⟨name, value⟩ := entry
    obtain ⟨name', value'⟩ := entry'
    obtain ⟨rfl, hvalue⟩ := relates_pair.1 hentry
    exact runs_bindIn (hu.relates hframe) _ hvalue.stores
  · exact runs_catchReturn (hu.relates hframe)
      (runs_evaluate hev (hu.relates hframe) (hu.clean (hwx.clean hclosure.body)))

/-! ## Methods -/

include henv in
theorem runs_genericEnv (generic : String) :
    w.Runs (ev.genericEnv generic env) (ev.genericEnv generic env')
      (Bridge.Relates : Bridge → Option EnvId → Option EnvId → Prop) := by
  refine .get_bind (.ite Iff.rfl (fun _ => ?_) fun _ => ?_)
  · exact .pure (relates_some.2 ⟨_, rfl, relates_registryBase⟩)
  · refine (runs_function? hev henv _).bind fun found found' z hz hfound => ?_
    cases hfound with
    | none => exact .pure relates_none
    | @some value value' hvalue =>
      have htype := hvalue.same (f := Value.typeName) fun _ _ => Renaming.typeName_rename
      cases hvalue.alike with
      | closure hclosure => exact .pure (relates_some.2 ⟨_, rfl, clean_env.1 hclosure.env⟩)
      | builtin _ =>
        exact .pure (relates_some.2 ⟨_, rfl, hz.relates relates_registryBase⟩)
      | _ =>
        dsimp only
        rw [htype]
        exact .fail _

include henv in
theorem runs_methodOf (hv : w.bridge.Clean v v') :
    w.Runs (ev.methodOf v env) (ev.methodOf v' env') Bridge.Clean := by
  unfold methodOf
  rw [hv.same fun _ _ => Renaming.singleString?_rename,
    hv.same fun _ _ => Renaming.typeName_rename]
  refine .ite (by rw [hv.same fun _ _ => Renaming.isFunction_rename]) (fun _ => .pure hv)
    fun _ => ?_
  split
  · exact runs_requireFunction hev henv _
  · exact .fail _

include henv in
theorem runs_registerMethodFrom (generic className : String) (hv : w.bridge.Clean v v') :
    w.Runs (ev.registerMethodFrom generic className v env)
      (ev.registerMethodFrom generic className v' env') fun _ _ _ => True := by
  refine (runs_genericEnv hev henv generic).bind fun found found' z hz hfound => ?_
  cases hfound.option_rel with
  | none => exact .fail _
  | some hdefinition =>
    refine (runs_methodOf hev (hz.relates henv) (hz.clean hv)).bind fun method method' y hy
      hmethod => ?_
    exact runs_registerMethod generic className hmethod (hy.relates hdefinition)

include henv in
theorem runs_method? (name : Symbol) {table table' : Option EnvId}
    (htable : w.bridge.Relates table table') :
    w.Runs (ev.method? name env table) (ev.method? name env' table')
      fun b => Option.Rel b.Clean := by
  refine (runs_function? hev henv name).bind fun found found' z hz hfound => ?_
  cases hfound with
  | some hmethod => exact .pure (.some hmethod)
  | none =>
    cases htable.option_rel with
    | none => exact .pure .none
    | some hsame =>
      refine (looks_getLocal (hz.relates hsame) name).andThen fun found found' hfound => ?_
      cases hfound with
      | none => exact .pure .none
      | some hvalue =>
        refine (runs_force hev hvalue).bind fun value value' y hy hvalue => ?_
        have hfunction := hvalue.relates.same (f := Value.isFunction)
          fun _ _ => Renaming.isFunction_rename
        rw [hfunction]
        split
        · rename_i h
          exact .pure (.some (hvalue.clean_of_isFunction h))
        · exact .pure .none

include henv in
theorem runs_methodForClasses (generic : String) {table table' : Option EnvId}
    (htable : w.bridge.Relates table table') (classes : List String) :
    w.Runs (ev.methodForClasses generic env table classes)
      (ev.methodForClasses generic env' table' classes) fun b => Option.Rel b.Selects := by
  induction classes generalizing w with
  | nil => exact .pure .none
  | cons className rest ih =>
    refine (runs_method? hev henv _ htable).bind fun found found' z hz hfound => ?_
    cases hfound with
    | some hmethod => exact .pure (.some ⟨hmethod, rfl⟩)
    | none => exact ih (hz.relates henv) (hz.relates htable)

include henv in
theorem runs_methodOrDefault (generic : String) (classes : List String)
    {table table' : Option EnvId} (htable : w.bridge.Relates table table') :
    w.Runs (ev.methodOrDefault generic classes env table)
      (ev.methodOrDefault generic classes env' table') fun b => Option.Rel b.Selects := by
  refine (runs_methodForClasses hev henv generic htable classes).bind
    fun found found' z hz hfound => ?_
  cases hfound with
  | some hselected => exact .pure (.some hselected)
  | none =>
    refine (runs_method? hev (hz.relates henv) _ (hz.relates htable)).bind
      fun method method' y hy hmethod => .pure ?_
    cases hmethod with
    | none => exact .none
    | some h => exact .some ⟨h, rfl⟩

include henv in
theorem runs_selectMethod (generic : String) (classes : List String)
    {definitionEnv definitionEnv' : EnvId}
    (hdefinition : w.bridge.Relates definitionEnv definitionEnv') :
    w.Runs (ev.selectMethod generic classes env (some definitionEnv))
      (ev.selectMethod generic classes env' (some definitionEnv'))
      fun b => Option.Rel b.Selects :=
  (looks_methodsTable hdefinition).andThen fun _ _ htable =>
    runs_methodOrDefault hev henv generic classes htable

include henv in
theorem runs_receiver {formals formals' : ArgList} (hformals : w.bridge.Clean formals formals') :
    w.Runs (ev.receiver formals env) (ev.receiver formals' env') Bridge.Stores := by
  have hnull : w.bridge.Stores .null .null := (relates_null.2 rfl : w.bridge.Clean _ _).stores
  have hfirst : formals'.head?.bind (·.tag) = formals.head?.bind (·.tag) :=
    hformals.same (f := fun (formals : ArgList) => formals.head?.bind (·.tag)) fun r formals => by
      cases formals <;> rfl
  unfold receiver
  rw [hfirst]
  split
  · exact .pure hnull
  · refine (looks_getLocal henv _).andThen fun found found' hfound => ?_
    cases hfound with
    | none => exact .pure hnull
    | @some value value' hvalue =>
      refine .ite Iff.rfl (fun _ => ?_) fun _ => .ite
        (by rw [hvalue.relates.same fun _ _ => Renaming.isMissingArg_rename]) (fun _ => .fail _)
        fun _ => runs_force hev hvalue
      have hrelates := hvalue.relates
      cases hrelates.alike with
      | dots _ =>
        have hargs := hvalue.of_dots
        cases hargs with
        | nil => exact .pure hnull
        | cons harg _ =>
          exact (runs_forcePassing hev harg.relates.value harg.passing).weaken
            fun _ _ _ _ h => h.stores
      | _ => exact .pure hnull

include henv in
theorem runs_firstMethod {table table' : Option EnvId} (htable : w.bridge.Relates table table')
    (names : List Symbol) :
    w.Runs (ev.firstMethod env table names) (ev.firstMethod env' table' names)
      fun b => Option.Rel b.Clean := by
  induction names generalizing w with
  | nil => exact .pure .none
  | cons name rest ih =>
    refine (runs_method? hev henv name htable).bind fun found found' z hz hfound => ?_
    cases hfound with
    | some hmethod => exact .pure (.some hmethod)
    | none => exact ih (hz.relates henv) (hz.relates htable)

omit hev in
theorem operatorMethodNames_eq (op : String) (hargs : w.bridge.Clean args args') :
    operatorMethodNames op args' = operatorMethodNames op args := by
  refine hargs.same (f := operatorMethodNames op) fun r args => ?_
  simp only [operatorMethodNames, Renaming.rename_list, List.flatMap_map, Renaming.rename_arg,
    Renaming.hasClassAttribute_rename, Renaming.classes_rename]

include henv in
theorem runs_dispatchOperator (op : String) (hargs : w.bridge.Clean args args') :
    w.Runs (ev.dispatchOperator op env args) (ev.dispatchOperator op env' args')
      fun b => Option.Rel b.Clean := by
  refine .get_bind ((looks_methodsTable relates_registryBase).andThen fun table table' htable => ?_)
  rw [operatorMethodNames_eq op hargs]
  refine (runs_firstMethod hev henv htable _).bind fun found found' z hz hfound => ?_
  cases hfound with
  | none => exact .pure .none
  | some hmethod =>
    have hargs := hz.clean hargs
    refine Runs.bind (.mapM (P := Bridge.Clean) (S := Bridge.Hands)
      (fun _ _ _ _ h h' => h'.mono (bare_mono h)) (fun _ _ _ _ h => .mono h)
      (fun arg arg' y hy harg => ?_) (relates_iff_forall₂.1 hargs))
      fun promised promised' y hy hpromised => ?_
    · refine (runs_newKept harg.value harg.value).bind fun value value' x hx hvalue => ?_
      rw [harg.tag]
      exact .pure ⟨relates_newArg hvalue.1, hvalue.2⟩
    · refine (runs_newCall (relates_symbol.2 rfl) (hy.clean hargs)).bind
        fun call call' x hx hcall => ?_
      refine (runs_newBare _).bind fun name name' u hu hname => ?_
      have hyu := hx.trans hu
      refine Runs.bind (hev u _ _ (.apply (hyu.clean (hy.clean hmethod)) (hu.clean hcall)
        (hyu.passes hpromised) (hyu.relates (hy.relates (hz.relates henv)))
        (relates_cons.2 ⟨relates_pair.2 ⟨rfl, hname⟩, relates_nil⟩)))
        fun value value' t ht hvalue => .pure (.some hvalue)

omit hev in
theorem runs_classesValue (classes : List String) :
    w.Runs (classesValue classes) (classesValue classes) Bridge.Clean := by
  unfold classesValue
  split
  · exact .pure (relates_null.2 rfl)
  · exact runs_newBare _

include henv in
theorem runs_applyMethod (generic : String) {object object' : Value}
    (hclasses : object'.classes = object.classes) {i j : Invocation}
    (hi : w.bridge.MatchesInvocation i j) :
    w.Runs (ev.applyMethod generic object i env) (ev.applyMethod generic object' j env')
      Bridge.Clean := by
  unfold applyMethod
  rw [hclasses]
  refine (runs_genericEnv hev hi.callerEnv generic).bind fun found found' z hz hfound => ?_
  have hi := hi.mono hz.bridge
  have hdefinition : z.bridge.Relates (found.getD i.closure.env) (found'.getD j.closure.env) := by
    cases hfound.option_rel with
    | none => exact clean_env.1 hi.closure.env
    | some h => exact h
  refine (runs_selectMethod hev hi.callerEnv generic _ hdefinition).bind
    fun selected selected' y hy hselected => ?_
  have hi := hi.mono hy.bridge
  cases hselected with
  | none => exact .fail _
  | @some selected selected' hselects =>
    dsimp only
    rw [hselects.classes]
    refine (runs_newBare _).bind fun name name' x hx hname => ?_
    refine (runs_classesValue _).bind fun classes classes' u hu hclasses => ?_
    have hyu := hx.trans hu
    have hi := hi.mono hyu.bridge
    refine Runs.bind (hev u _ _ (.apply (hyu.clean hselects.method) hi.call hi.args hi.callerEnv
      (relates_cons.2 ⟨relates_pair.2 ⟨rfl, hu.clean hname⟩,
        relates_cons.2 ⟨relates_pair.2 ⟨rfl, hclasses⟩, relates_nil⟩⟩)))
      fun value value' t ht hvalue => ?_
    exact .returning (ht.relates (hyu.relates (hy.relates (hz.relates henv)))) hvalue

include henv in
theorem runs_useMethod (generic : String) {object object' : Option Value}
    (hobject : w.bridge.Clean object object') :
    w.Runs (ev.useMethod generic object env) (ev.useMethod generic object' env') Bridge.Clean := by
  refine .get_bind ?_
  have hinvocation := w.invocationOf? henv
  generalize w.left.invocationOf? env = i at hinvocation ⊢
  generalize w.right.invocationOf? env' = j at hinvocation ⊢
  cases hinvocation with
  | none => exact .fail _
  | some hi =>
    cases hobject.option_rel with
    | none =>
      refine (runs_receiver hev henv hi.closure.formals).bind fun value value' z hz hvalue => ?_
      exact runs_applyMethod hev (hz.relates henv) generic
        (hvalue.relates.same fun _ _ => Renaming.classes_rename) (hi.mono hz.bridge)
    | some h =>
      exact runs_applyMethod hev henv generic (h.same fun _ _ => Renaming.classes_rename) hi

/-! ## Special forms -/

include henv in
theorem runs_evaluateBlock (hargs : w.bridge.Clean args args') (hv : w.bridge.Clean v v') :
    w.Runs (ev.evaluateBlock env args v) (ev.evaluateBlock env' args' v') Bridge.Clean := by
  induction args generalizing w args' v v' with
  | nil =>
    rw [hargs.of_nil]
    exact .pure hv
  | cons arg rest ih =>
    obtain ⟨arg', rest', rfl, harg, hrest⟩ := hargs.of_cons
    refine (runs_evaluate hev henv harg.value).bind fun value value' z hz hvalue => ?_
    exact ih (hz.relates henv) (hz.clean hrest) hvalue

include henv in
theorem runs_assign (hargs : w.bridge.Clean call.args call'.args) :
    w.Runs (ev.assign call env) (ev.assign call' env') Bridge.Clean := by
  refine (looks_twoArgs hargs .assign).andThen ?_
  rintro ⟨target, expr⟩ ⟨target', expr'⟩ ⟨htarget, hexpr⟩
  refine (looks_assignmentTarget htarget).andThen fun name name' hname => ?_
  subst hname
  refine (runs_evaluate hev henv hexpr).bind fun value value' z hz hvalue => ?_
  refine (runs_bindIn (hz.relates henv) _ hvalue.stores).bind fun _ _ y hy _ => ?_
  exact .pure (hy.clean hvalue)

include henv in
theorem runs_assignOuter (hargs : w.bridge.Clean call.args call'.args) :
    w.Runs (ev.assignOuter call env) (ev.assignOuter call' env') Bridge.Clean := by
  refine (looks_twoArgs hargs .assignOuter).andThen ?_
  rintro ⟨target, expr⟩ ⟨target', expr'⟩ ⟨htarget, hexpr⟩
  refine (looks_assignmentTarget htarget).andThen fun name name' hname => ?_
  subst hname
  refine (runs_evaluate hev henv hexpr).bind fun value value' z hz hvalue => .get_bind ?_
  refine (runs_assignNonLocal (hz.relates henv) _ hvalue.stores).bind fun _ _ y hy _ => ?_
  exact .pure (hy.clean hvalue)

include henv in
theorem runs_ifElse (hargs : w.bridge.Clean call.args call'.args) :
    w.Runs (ev.ifElse call env) (ev.ifElse call' env') Bridge.Clean := by
  refine (looks_requireArity (.of_clean hargs) .ifElse 2 3).andThen fun _ _ _ => ?_
  have hlist := relates_iff_forall₂.1 hargs
  generalize call.args = args at hlist
  generalize call'.args = args' at hlist
  rcases hlist with _ | ⟨hcondition, _ | ⟨hconsequence, halternative⟩⟩
  · exact .pure (relates_null.2 rfl)
  · exact .pure (relates_null.2 rfl)
  · refine (runs_evaluate hev henv hcondition.value).bind fun value value' z hz hvalue => ?_
    have htype := hvalue.same (f := Value.typeName) fun _ _ => Renaming.typeName_rename
    rw [hvalue.same (f := Value.condition?) fun _ _ => Renaming.condition?_rename, htype]
    split
    · exact .fail _
    · exact runs_evaluate hev (hz.relates henv) (hz.clean hconsequence.value)
    · cases halternative with
      | nil => exact .pure (relates_null.2 rfl)
      | cons halternative _ =>
        exact runs_evaluate hev (hz.relates henv) (hz.clean halternative.value)

include henv in
theorem runs_forLoop (hcall : w.bridge.Clean call call') :
    w.Runs (ev.forLoop call env) (ev.forLoop call' env') Bridge.Clean := by
  have hlist := relates_iff_forall₂.1 hcall.args
  have hlength := hlist.length_eq
  unfold forLoop
  generalize call.args = args at hlist hlength
  generalize call'.args = args' at hlist hlength
  match args, args', hlist with
  | [], _, .nil => exact .fail _
  | [_], _, .cons _ .nil => exact .fail _
  | [_, _], _, .cons _ (.cons _ .nil) => exact .fail _
  | [⟨_, counter⟩, sequence, body], [⟨_, counter'⟩, sequence', body'],
      .cons hcounter (.cons hsequence (.cons hbody .nil)) =>
    have hcounter : w.bridge.Clean counter counter' := hcounter.value
    cases hcounter.alike with
    | symbol var =>
      refine (runs_evaluate hev henv hsequence.value).bind fun value value' z hz hvalue => ?_
      exact hev z _ _ (.loop var (hz.clean hcall) (hz.relates henv) hvalue (hz.clean hbody.value))
    | _ => exact .fail _
  | _ :: _ :: _ :: _ :: _, _ :: _ :: _ :: _ :: _, .cons _ (.cons _ (.cons _ (.cons _ _))) =>
    dsimp only
    rw [hlength]
    exact .fail _

include henv in
theorem runs_evaluateFirst (hargs : w.bridge.Clean args args') :
    w.Runs (ev.evaluateFirst args env) (ev.evaluateFirst args' env') Bridge.Clean := by
  cases args with
  | nil =>
    rw [hargs.of_nil]
    exact .pure (relates_null.2 rfl)
  | cons arg rest =>
    obtain ⟨arg', rest', rfl, harg, -⟩ := hargs.of_cons
    exact runs_evaluate hev henv harg.value

include henv in
theorem runs_returnValue (hargs : w.bridge.Clean call.args call'.args) :
    w.Runs (ev.returnValue call env) (ev.returnValue call' env') Bridge.Clean := by
  refine (looks_requireArity (.of_clean hargs) .returnValue 0 1).andThen fun _ _ _ => ?_
  refine (runs_evaluateFirst hev henv hargs).bind fun value value' z hz hvalue => .get_bind ?_
  have hinvocation := z.invocationOf? (hz.relates henv)
  generalize z.left.invocationOf? env = i at hinvocation ⊢
  generalize z.right.invocationOf? env' = j at hinvocation ⊢
  cases hinvocation with
  | none => exact .fail _
  | some _ => exact .returning (hz.relates henv) hvalue

include henv in
theorem runs_useMethodForm (hargs : w.bridge.Clean call.args call'.args) :
    w.Runs (ev.useMethodForm call env) (ev.useMethodForm call' env') Bridge.Clean := by
  refine (looks_requireArity (.of_clean hargs) .useMethod 1 2).andThen fun _ _ _ => ?_
  refine (runs_evaluateFirst hev henv hargs).bind fun generic generic' z hz hgeneric => ?_
  rw [hgeneric.same (f := fun v => nameArg v "generic") fun _ _ => Renaming.nameArg_rename _ _]
  refine (Looks.ofExcept (P := Eq) ?_).andThen fun generic generic' hsame => ?_
  · cases nameArg generic "generic" with
    | error e => exact .inl ⟨e, rfl, rfl⟩
    | ok text => exact .inr ⟨text, text, rfl, rfl, rfl⟩
  subst hsame
  have hlist := relates_iff_forall₂.1 (hz.clean hargs)
  have hnone : z.bridge.Clean (none : Option Value) none := relates_none
  generalize call.args = args at hlist
  generalize call'.args = args' at hlist
  rcases hlist with _ | ⟨_, _ | ⟨hobject, _ | ⟨_, _⟩⟩⟩
  · exact runs_useMethod hev (hz.relates henv) generic hnone
  · exact runs_useMethod hev (hz.relates henv) generic hnone
  · refine (runs_evaluate hev (hz.relates henv) hobject.value).bind
      fun object object' y hy hobject => ?_
    exact runs_useMethod hev (hy.relates (hz.relates henv)) generic
      (relates_some.2 ⟨_, rfl, hobject⟩)
  · exact runs_useMethod hev (hz.relates henv) generic hnone

include henv in
theorem runs_runSpecial (form : SpecialForm) (hcall : w.bridge.Clean call call') :
    w.Runs (ev.runSpecial form call env) (ev.runSpecial form call' env') Bridge.Clean := by
  have hargs := hcall.args
  cases form with
  | quote => exact (looks_oneArg hargs .quote).runs
  | function => exact runs_makeFunction hargs henv
  | assign => exact runs_assign hev henv hargs
  | assignEquals => exact runs_assign hev henv hargs
  | assignOuter => exact runs_assignOuter hev henv hargs
  | block => exact runs_evaluateBlock hev henv hargs (relates_null.2 rfl)
  | ifElse => exact runs_ifElse hev henv hargs
  | forLoop => exact runs_forLoop hev henv hcall
  | returnValue => exact runs_returnValue hev henv hargs
  | missing => exact runs_missingForm hargs henv
  | useMethod => exact runs_useMethodForm hev henv hargs
  | receivedCall =>
    refine .pure (relates_list.2 ⟨_, rfl, relates_cons.2 ⟨relates_arg ?_,
      relates_cons.2 ⟨relates_arg ?_, relates_nil⟩⟩⟩)
    · exact relates_call.2 ⟨_, rfl, hcall⟩
    · exact relates_environment.2 ⟨_, rfl, clean_env.2 henv⟩

/-! ## Builtins -/

omit hev in
theorem looks_argsByName (hargs : w.bridge.Clean args args') (formals : List String) :
    w.Looks (SessionM.ofExcept (argsByName args formals))
      (SessionM.ofExcept (argsByName args' formals)) w.bridge.Clean :=
  .computed (hargs.map (f := (argsByName · formals))
    fun _ args => Renaming.argsByName_rename args _)

omit hev in
theorem looks_requireArg {values values' : List Value} (hvalues : w.bridge.Clean values values')
    (builtin : String) (i : Nat) :
    w.Looks (SessionM.ofExcept (requireArg builtin values i))
      (SessionM.ofExcept (requireArg builtin values' i)) w.bridge.Clean :=
  .computed (hvalues.map (f := (requireArg builtin · i)) fun _ values =>
    Renaming.requireArg_rename _ values i)

omit hev in
theorem looks_nameArg (hv : w.bridge.Clean v v') (what : String) :
    w.Looks (SessionM.ofExcept (nameArg v what)) (SessionM.ofExcept (nameArg v' what)) Eq := by
  rw [hv.same (f := (nameArg · what)) fun _ _ => Renaming.nameArg_rename _ _]
  cases nameArg v what with
  | error e => exact .fail e
  | ok text => exact .pure rfl

omit hev in
theorem looks_onlyArg (hargs : w.bridge.Clean args args') (builtin formal : String) :
    w.Looks
      (do
        let values ← SessionM.ofExcept (argsByName args [formal])
        SessionM.ofExcept (requireArg builtin values 0))
      (do
        let values ← SessionM.ofExcept (argsByName args' [formal])
        SessionM.ofExcept (requireArg builtin values 0)) w.bridge.Clean :=
  (looks_argsByName hargs _).bind fun _ _ hvalues => looks_requireArg hvalues _ 0

include henv in
theorem runs_registerMethodBuiltin (hargs : w.bridge.Clean args args') :
    w.Runs (ev.registerMethodBuiltin args env) (ev.registerMethodBuiltin args' env')
      Bridge.Clean := by
  refine (looks_argsByName hargs _).andThen fun values values' hvalues => ?_
  refine (looks_requireArg hvalues _ 0).andThen fun generic generic' hgeneric => ?_
  refine (looks_nameArg hgeneric _).andThen fun generic _ hsame => ?_
  subst hsame
  refine (looks_requireArg hvalues _ 1).andThen fun className className' hclass => ?_
  refine (looks_nameArg hclass _).andThen fun className _ hsame => ?_
  subst hsame
  refine (looks_requireArg hvalues _ 2).andThen fun method method' hmethod => ?_
  have hgiven : w.bridge.Clean (values[3]?.getD .missingArg) (values'[3]?.getD .missingArg) :=
    hvalues.map (f := fun (values : List Value) => values[3]?.getD .missingArg) fun r values => by
      rw [Renaming.rename_list, List.getElem?_map]
      cases values[3]? <;> rfl
  refine (Looks.computed ((clean_env.2 henv).map₂ (f := environmentOr)
    (fun _ => Renaming.environmentOr_rename) hgiven)).andThen fun env env' henv => ?_
  exact (runs_registerMethodFrom hev (clean_env.1 henv) generic className hmethod).bind
    fun _ _ _ _ _ => .pure (relates_null.2 rfl)

include henv in
theorem runs_runNamespaceQuery (query : NamespaceQuery) (hargs : w.bridge.Clean args args') :
    w.Runs (ev.runNamespaceQuery query args env) (ev.runNamespaceQuery query args' env')
      Bridge.Clean := by
  have honly := looks_onlyArg hargs query.name
  have hnamespaces := w.matched.rest.namespaces
  cases query with
  | registerMethod => exact runs_registerMethodBuiltin hev henv hargs
  | load =>
    refine (honly "name").andThen fun value value' hvalue => ?_
    refine (looks_nameArg hvalue _).andThen fun name _ hsame => ?_
    subst hsame
    refine (runs_loadNamespace _).bind fun ns ns' z hz hns => .pure ?_
    exact relates_environment.2 ⟨_, rfl, clean_env.2 (hns.map fun _ _ => rfl)⟩
  | isNamespace =>
    refine (honly "ns").andThen fun value value' hvalue => ?_
    cases hvalue.alike with
    | @environment id id' hid =>
      refine .get_bind ?_
      unfold Namespaces.isNamespaceEnv
      rw [nameOf?_eq (clean_env.1 hid)]
      exact runs_newBare _
    | _ => exact runs_newBare _
  | loaded =>
    refine .get_bind ?_
    rw [hnamespaces.same fun _ known => known.names_rename]
    exact runs_newBare _
  | nameOf =>
    refine (honly "ns").andThen fun value value' hvalue => ?_
    exact (runs_namespaceOf hvalue).bind fun _ _ _ _ hns => runs_namespaceName hns
  | exportsOf =>
    refine (honly "ns").andThen fun value value' hvalue => ?_
    refine (runs_namespaceOf hvalue).bind fun ns ns' z hz hns => ?_
    rw [hns.same (f := Namespace.exports) fun _ _ => rfl]
    exact runs_newBare _
  | importsOf =>
    refine (honly "ns").andThen fun value value' hvalue => ?_
    refine (runs_namespaceOf hvalue).bind fun ns ns' z hz hns => .get_bind ?_
    rw [hns.same (f := Namespace.name) fun _ _ => rfl,
      z.matched.rest.namespaces.same (f := (Namespaces.imports · ns.name))
        fun _ known => known.imports_rename ns.name]
    cases z.left.namespaces.imports ns.name with
    | error e => exact .fail e
    | ok _ => exact .pure (relates_null.2 rfl)
  | lookUp =>
    refine (honly "name").andThen fun value value' hvalue => ?_
    refine (looks_nameArg hvalue _).andThen fun name _ hsame => ?_
    subst hsame
    refine .get_bind ?_
    have hfound := (hnamespaces.map (f := (Namespaces.registered? · name))
      fun _ known => known.registered?_rename name).option_rel
    generalize w.left.namespaces.registered? name = found at hfound ⊢
    generalize w.right.namespaces.registered? name = found' at hfound ⊢
    cases hfound with
    | none => exact .pure (relates_null.2 rfl)
    | some hid => exact .pure (relates_environment.2 ⟨_, rfl, clean_env.2 hid⟩)

include henv in
theorem runs_runArithmetic (op : BinaryOp) (hargs : w.bridge.Clean args args') :
    w.Runs (ev.runArithmetic op args env) (ev.runArithmetic op args' env') Bridge.Clean := by
  refine (runs_dispatchOperator hev henv op.spelling hargs).bind fun found found' z hz hfound => ?_
  cases hfound with
  | some hvalue => exact .pure hvalue
  | none =>
    exact runs_deliver ((hz.clean hargs).map (f := Builtin.arithmetic op) fun _ =>
      Builtin.arithmetic_rename op)

include henv in
theorem runs_runEager {builtin : EagerBuiltin} (hquiet : ∀ query, builtin ≠ .introspect query)
    (hargs : w.bridge.Clean args args') :
    w.Runs (ev.runEager builtin args env) (ev.runEager builtin args' env') Bridge.Clean := by
  cases builtin with
  | arithmetic op => exact runs_runArithmetic hev henv op hargs
  | compare op =>
    exact runs_deliver (hargs.map (f := Builtin.compare op) fun _ => Builtin.compare_rename op)
  | sequence => exact runs_deliver (hargs.map fun _ => Builtin.sequence_rename)
  | combine => exact runs_deliver (hargs.map fun _ => Builtin.combine_rename)
  | length => exact runs_deliver (hargs.map fun _ => Builtin.length_rename)
  | math f => exact runs_deliver (hargs.map (f := Builtin.math f) fun _ => Builtin.math_rename f)
  | reduce op =>
    exact runs_deliver (hargs.map (f := Builtin.reduce op) fun _ => Builtin.reduce_rename op)
  | margin op =>
    exact runs_deliver (hargs.map (f := Builtin.margin op) fun _ => Builtin.margin_rename op)
  | withAttributes => exact runs_deliver (hargs.map fun _ => Builtin.withAttributes_rename)
  | attributeOf => exact runs_deliver (hargs.map fun _ => Builtin.attributeOf_rename)
  | classOf => exact runs_deliver (hargs.map fun _ => Builtin.classOf_rename)
  | environmentOf =>
    exact runs_deliver (hargs.map₂ (f := Builtin.environmentOf)
      (fun _ => Builtin.environmentOf_rename) (clean_env.2 henv))
  | namespaces query => exact runs_runNamespaceQuery hev henv query hargs
  | introspect query => exact absurd rfl (hquiet query)

/-! ## Expressions -/

include henv in
theorem runs_evaluateSymbol (name : Symbol) :
    w.Runs (ev.evaluateSymbol name env) (ev.evaluateSymbol name env') Bridge.Clean := by
  refine .ite Iff.rfl (fun _ => .fail _) fun _ => .ite Iff.rfl (fun _ => .fail _) fun _ => ?_
  refine (looks_lookup henv name).andThen fun value value' hvalue => ?_
  have hforce (hpassing : w.bridge.Passing value) : w.Runs
      (do
        let value ← ev.force value
        if value.isMissingArg then SessionM.fail (.argumentMissing name) else return value)
      (do
        let value ← ev.force value'
        if value.isMissingArg then SessionM.fail (.argumentMissing name) else return value)
      Bridge.Clean := by
    refine (runs_forcePassing hev hvalue.relates hpassing).bind fun found found' z hz hfound => ?_
    exact .ite (by rw [hfound.same fun _ _ => Renaming.isMissingArg_rename]) (fun _ => .fail _)
      fun _ => .pure hfound
  obtain ⟨hrelates, hpassing | ⟨args, rfl, -⟩⟩ := hvalue
  · cases hrelates.alike with
    | dots _ => exact .fail _
    | _ => exact hforce hpassing
  · obtain ⟨args', rfl, -⟩ := relates_dots.1 hrelates
    exact .fail _

include henv in
theorem runs_functionOf (hcall : w.bridge.Clean call call') :
    w.Runs (ev.functionOf call env) (ev.functionOf call' env') Bridge.Clean := by
  have hfunction := hcall.function
  unfold functionOf
  generalize call.function = function at hfunction ⊢
  generalize call'.function = function' at hfunction ⊢
  cases hfunction.alike with
  | symbol name => exact runs_requireFunction hev henv name
  | _ => exact runs_evaluate hev henv hfunction

include henv in
theorem runs_evaluateCall (hcall : w.bridge.Clean call call') :
    w.Runs (ev.evaluateCall call env) (ev.evaluateCall call' env') Bridge.Clean := by
  refine (runs_functionOf hev henv hcall).bind fun function function' z hz hfunction => ?_
  have henv := hz.relates henv
  have hcall := hz.clean hcall
  have htype := hfunction.same (f := Value.typeName) fun _ _ => Renaming.typeName_rename
  cases hfunction.alike with
  | closure hclosure =>
    refine (runs_suspendArgs hcall.args henv).bind fun promised promised' y hy hpromised => ?_
    exact runs_invoke hev (hy.relates henv) (hy.clean hclosure) (hy.clean hcall) hpromised
      relates_nil
  | @builtin identity f hquiet =>
    cases f with
    | special form => exact runs_runSpecial hev henv form hcall
    | eager builtin =>
      refine (runs_argValues hev henv hcall.args).bind fun values values' y hy hvalues => ?_
      exact runs_runEager hev (hy.relates henv) (fun query h => hquiet query (congrArg _ h)) hvalues
  | _ =>
    dsimp only
    rw [htype]
    exact .fail _

include henv in
theorem runs_evaluateExpr (hv : w.bridge.Clean v v') :
    w.Runs (ev.evaluateExpr v env) (ev.evaluateExpr v' env') Bridge.Clean := by
  cases hv.alike with
  | symbol name => exact runs_evaluateSymbol hev henv name
  | call hcall => exact runs_evaluateCall hev henv hcall
  | promise hp => exact hp.elim
  | dots _ => exact .fail _
  | _ => exact .pure hv

include henv in
theorem runs_applyValue {function function' : Value}
    (hfunction : w.bridge.Clean function function') (hcall : w.bridge.Clean call call')
    (hargs : w.bridge.Passes args args') {extra extra' : List (Symbol × Value)}
    (hextra : w.bridge.Clean extra extra') :
    w.Runs (ev.applyValue function call args env extra)
      (ev.applyValue function' call' args' env' extra') Bridge.Clean := by
  have htype := hfunction.same (f := Value.typeName) fun _ _ => Renaming.typeName_rename
  cases hfunction.alike with
  | closure hclosure => exact runs_invoke hev henv hclosure hcall hargs hextra
  | @builtin identity f hquiet =>
    cases f with
    | special form => exact runs_runSpecial hev henv form hcall
    | eager builtin =>
      refine (runs_forceArgs hev hargs).bind fun values values' z hz hvalues => ?_
      exact runs_runEager hev (hz.relates henv) (fun query h => hquiet query (congrArg _ h)) hvalues
  | _ =>
    unfold applyValue
    dsimp only
    rw [htype]
    exact .fail _

end Evaluator

end CallByNeed
