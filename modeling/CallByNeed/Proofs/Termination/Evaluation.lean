import CallByNeed.Proofs.Dangling.Evaluation
import CallByNeed.Proofs.Termination.Ends

/-!
# Evaluation comes to an end

Given a family of evaluators that come to an end with every task that is smaller
by the measure of a budget (`Evaluator.EndsBelow`), each rule of evaluation comes
to an end with a task of that budget.  What a rule hands on is a promise that
waits, the body of an invocation, a method for the caller, or a smaller task in
the same environment; of the latter kind is also whatever an operator applies as
its method, unless that is an operator or a special form itself.
-/

namespace CallByNeed

open Session

namespace Evaluator

/-- The evaluators come to an end with what is smaller than the budget. -/
structure EndsBelow (ev : Nat → Evaluator) (b : Budget) : Prop where
  /-- The expression of a promise that waits, which is marked meanwhile. -/
  forced : ∀ {s : Session} {id expr env}, s.Meets b → s.Admits (.promise id) →
    s.promises.get? id = some ⟨expr, .waiting env false⟩ →
    EndsAt (s.mark id true) (fun n => (ev n).evaluate expr env) Admits
  /-- The body of one more invocation. -/
  body : ∀ {s : Session} {expr env}, s.Founded → s.depth = b.depth + 1 → s.depth ≤ b.maxDepth →
    s.options.maxCallDepth = b.maxDepth → s.Admits expr → s.heap.contains env = true →
    EndsAt s (fun n => (ev n).evaluate expr env) Admits
  /-- Any task in the environment of a caller. -/
  outward : ∀ (task) {s : Session}, s.Meets b → s.AdmitsTask task → s.rank task.env < b.rank →
    EndsAt s (fun n => ev n task) Admits
  /-- A smaller task in an environment as far out. -/
  lighter : ∀ (task) {s : Session}, s.Meets b → s.AdmitsTask task → s.rank task.env ≤ b.rank →
    task.redispatches = true ∨ task.weight < b.weight → EndsAt s (fun n => ev n task) Admits

variable {ev : Nat → Evaluator} {b : Budget} (hev : EndsBelow ev b) {s : Session} (hs : s.Meets b)
  {env : EnvId} (henv : s.heap.contains env = true) (hwithin : s.Within b env) {v : Value}
  {args : ArgList} {call : Call}
include hev hs

/-! ## Tasks -/

include hwithin in
theorem ends_evaluate (hv : s.Admits v) (hweight : 2 * sizeOf v < b.weight) :
    EndsAt s (fun n => (ev n).evaluate v env) Admits :=
  hev.lighter (.evaluate v env) hs ⟨hv, hwithin.live⟩ hwithin.rank (.inr hweight)

include hwithin in
theorem ends_evaluateArg {arg : Arg Value} (hmem : arg ∈ args) (hargs : s.AdmitsArgs args)
    (hafford : b.Affords args) : EndsAt s (fun n => (ev n).evaluate arg.value env) Admits :=
  ends_evaluate hev hs hwithin (hargs arg hmem) (Nat.lt_of_succ_lt (hafford arg hmem))

/-! ## Promises and functions by name -/

theorem ends_demand {id : PromiseId} (hid : s.Admits (.promise id)) :
    EndsAt s (fun n => (ev n).demand id) Admits := by
  rcases hp : s.promises.get? id with _ | ⟨expr, ⟨env, _ | _⟩ | value⟩
  · refine .of_error ⟨0, fun n _ => (ev n).demand_run_recursive ?_ ?_⟩ (.refl hs.safe) rfl nofun <;>
    · intro _ _ h
      cases hp.symm.trans h
  · exact .demand hs.safe hp (hev.forced hs hid hp)
  · refine .of_error ⟨0, fun n _ => (ev n).demand_run_recursive ?_ ?_⟩ (.refl hs.safe) rfl nofun <;>
    · intro _ _ h
      cases hp.symm.trans h
  · exact .of_ok ⟨0, fun n _ => (ev n).demand_run_kept hp⟩ (.refl hs.safe)
      ((admits_promise.1 hid _ hp).value rfl)

theorem ends_force (hv : s.Admits v) : EndsAt s (fun n => (ev n).force v) Admits := by
  cases v with
  | promise id => exact ends_demand hev hs hv
  | _ => exact .pure hs.safe hv

include henv in
theorem ends_lookup (name : Symbol) : EndsAt s (fun n => (ev n).lookup env name) Admits :=
  .andThen hs.safe (reads_lookup hs.safe henv name) fun _ hv => ends_force hev hs hv

/-- The walk outward is not cut off, though promises are forced on the way: the frames stay in
    their layers. -/
theorem ends_functionWithin (name : Symbol) (fuel : Nat) {start : Option EnvId}
    (hstart : ∀ id ∈ start, s.heap.contains id = true) (hfuel : s.heap.EndsWithin fuel start) :
    EndsAt s (fun n => (ev n).functionWithin name fuel start)
      fun t found => ∀ f ∈ found, t.Admits f := by
  induction fuel generalizing s start with
  | zero =>
    cases start with
    | none => exact .pure hs.safe fun _ h => nomatch h
    | some id => exact hfuel.elim
  | succ fuel ih =>
    cases start with
    | none => exact .pure hs.safe fun _ h => nomatch h
    | some id =>
      refine .andThen hs.safe (reads_frame (hstart id rfl)) fun frame hframe => ?_
      have hparent := hs.safe.parent hframe
      have hrest := hfuel frame hframe
      cases hbinding : frame.get? name with
      | none => exact ih hs hparent hrest
      | some binding =>
        refine (ends_force hev hs (hs.safe.binding hframe hbinding)).bind
          fun value t ht hvalue => ?_
        refine .ite (fun _ => .pure ht.safe fun f hf => ?_) fun _ => ?_
        · cases hf
          exact hvalue
        · -- forcing left the parents of these frames as they were, so the way is as long as before
          exact ih (ht.meets hs) (fun id hid => ht.live (hparent id hid))
            (hrest.deepens ht.onward.deepens hs.safe.parents hparent)

include henv in
theorem ends_function? (name : Symbol) :
    EndsAt s (fun n => (ev n).function? env name) fun t found => ∀ f ∈ found, t.Admits f := by
  refine .andThen hs.safe (Reads.get (P := (s = ·)) rfl) fun _ hsame => ?_
  subst hsame
  refine ends_functionWithin hev hs name _ (fun id hid => ?_) (hs.founded.layered.endsWithin _)
  cases hid
  exact henv

include henv in
theorem ends_requireFunction (name : Symbol) :
    EndsAt s (fun n => (ev n).requireFunction env name) Admits := by
  refine (ends_function? hev hs henv name).bind fun found t ht hfound => ?_
  cases found with
  | some function => exact .pure ht.safe (hfound function rfl)
  | none => exact .fail ht.safe rfl

/-! ## Arguments -/

theorem ends_forceArg {arg : Arg Value} (harg : s.Admits arg.value) :
    EndsAt s (fun n => (ev n).forceArg arg) fun t arg => t.Admits arg.value :=
  .ite (fun _ => .pure hs.safe harg) fun _ =>
    (ends_force hev hs harg).bind fun _ _ ht hv => .pure ht.safe hv

theorem ends_forceArgs (hargs : s.AdmitsArgs args) :
    EndsAt s (fun n => args.mapM (ev n).forceArg) AdmitsArgs :=
  .mapM hs.safe (fun h => h.admits) fun arg harg _ ht =>
    ends_forceArg hev (ht.meets hs) (ht.admits (hargs arg harg))

include hwithin in
theorem ends_argValues (hargs : s.AdmitsArgs args) (hafford : b.Affords args) :
    EndsAt s (fun n => (ev n).argValues args env) AdmitsArgs := by
  induction args generalizing s with
  | nil => exact .pure hs.safe admitsArgs_nil
  | cons arg rest ih =>
    have hrest {evaluated : ArgList} {t : Session} (ht : s.Proceeds t)
        (hevaluated : t.AdmitsArgs evaluated) :
        EndsAt t (fun n => do return evaluated ++ (← (ev n).argValues rest env)) AdmitsArgs :=
      (ih (ht.meets hs) (ht.within hwithin) (ht.args (admitsArgs_cons.1 hargs).2)
        fun a ha => hafford a (.tail _ ha)).bind fun more u hu hmore =>
          .pure hu.safe (admitsArgs_append.2 ⟨hu.args hevaluated, hmore⟩)
    refine .ite (fun _ => ?_) fun _ => .ite (fun _ => ?_) fun _ => ?_
    · refine .andThen hs.safe (reads_ellipsisArgs hs.safe hwithin.live) fun dots hdots => ?_
      exact (ends_forceArgs hev hs hdots).bind fun _ _ ht => hrest ht
    · refine (EndsAt.pure hs.safe ?_).bind fun _ _ ht => hrest ht
      exact admitsArgs_cons.2 ⟨(admitsArgs_cons.1 hargs).1, admitsArgs_nil⟩
    · refine (ends_evaluateArg hev hs hwithin List.mem_cons_self hargs hafford).bind
        fun value t ht hvalue => ?_
      refine (EndsAt.pure ht.safe ?_).bind fun _ _ hu => hrest (ht.trans hu)
      exact admitsArgs_cons.2 ⟨hvalue, admitsArgs_nil⟩

/-! ## Invocations -/

include henv in
theorem ends_invoke {closure : Closure} (hclosure : s.Admits (.closure closure))
    (hcall : s.Admits (.call call)) (hargs : s.AdmitsArgs args) {extra : List (Symbol × Value)}
    (hextra : ∀ entry ∈ extra, s.Admits entry.2) :
    EndsAt s (fun n => (ev n).invoke closure env call args extra) Admits := by
  obtain ⟨hhome, hformals, hbody⟩ := admits_closure.1 hclosure
  have hparent : ∀ id ∈ some closure.env, s.heap.contains id = true := by
    intro id hid
    cases hid
    exact hhome
  have hallocate := hs.safe.onward_allocate hparent
  refine EndsAt.bind (P := fun t frame => frame = (s.heap.allocate (some closure.env)).1 ∧
      t = { s with heap := (s.heap.allocate (some closure.env)).2 })
    (.plain (.modifyGet hallocate ⟨rfl, rfl⟩) (Contract.keeps_allocate _)
      (SessionM.onlyFails_modifyGet _)) fun frame t ht ⟨hframe, ht'⟩ => ?_
  subst hframe ht'
  have hlive := hs.safe.contains_allocate (some closure.env)
  have hi : ({ s with heap := (s.heap.allocate (some closure.env)).2 } : Session).AdmitsInvocation
      ⟨(s.heap.allocate (some closure.env)).1, env, closure, call, args⟩ :=
    ⟨hlive, ht.live henv, ht.admits hclosure, ht.admits hcall, ht.args hargs⟩
  refine .withInvocation ht.safe hi fun hroom => ?_
  -- the frame is a new one, so nobody was called from there
  have hfounded := hs.founded.enter hparent rfl henv hi
  have henter := ht.safe.onward_enter hi
  refine (EndsAt.plain (safe_bindArguments hfounded.safe (henter.live hlive)
    (henter.args (ht.args hformals)) (henter.args (ht.args hargs)))
    (Contract.keeps_bindArguments _ _ _) (SessionM.onlyFails_bindArguments _ _ _)).bind
      fun _ u hu _ => ?_
  have hframe := hu.live (henter.live hlive)
  refine EndsAt.bind (P := fun _ _ => True) (.forM hu.safe fun (name, value) hmem w hw => ?_)
    fun _ w hw _ => ?_
  · have hvalue := henter.admits (ht.admits (hextra _ hmem))
    exact ends_bindIn hw.safe (hw.live hframe) name (hw.admits (hu.admits hvalue))
  · -- one invocation more leaves less room for those inside
    have hinside := hu.trans hw
    have hdepth := hinside.steady.depth.trans (congrArg (· + 1) hs.depth)
    have hmax := (congrArg Options.maxCallDepth hinside.steady.options).trans hs.maxDepth
    have hlt : s.depth < s.options.maxCallDepth := hroom
    rw [hs.depth, hs.maxDepth] at hlt
    refine .catchReturn (hev.body (hfounded.onward hinside.onward hinside.steady) hdepth ?_ hmax
      (hinside.admits (henter.admits (ht.admits hbody))) (hw.live hframe)) _
    omega

/-! ## Methods -/

include henv in
theorem ends_genericEnv (generic : String) :
    EndsAt s (fun n => (ev n).genericEnv generic env) fun t found =>
      ∀ id ∈ found, t.heap.contains id = true := by
  refine .andThen hs.safe (Reads.get (P := (s = ·)) rfl) fun _ hsame => ?_
  subst hsame
  refine .ite (fun _ => .pure hs.safe fun id hid => ?_) fun _ => ?_
  · cases hid
    exact hs.safe.registryBase
  · refine (ends_function? hev hs henv _).bind fun found t ht hfound => ?_
    rcases found with _ | function
    · exact .pure ht.safe fun _ h => nomatch h
    · cases function with
      | closure closure =>
        refine .pure ht.safe fun id hid => ?_
        cases hid
        exact (admits_closure.1 (hfound _ rfl)).1
      | builtin identity b =>
        refine .pure ht.safe fun id hid => ?_
        cases hid
        exact ht.live hs.safe.registryBase
      | _ => exact .fail ht.safe rfl

include henv in
theorem ends_methodOf (hv : s.Admits v) : EndsAt s (fun n => (ev n).methodOf v env) Admits := by
  refine .ite (fun _ => .pure hs.safe hv) fun _ => ?_
  cases v.singleString? with
  | some name => exact ends_requireFunction hev hs henv _
  | none => exact .fail hs.safe rfl

include henv in
theorem ends_registerMethodFrom (generic className : String) (hv : s.Admits v) :
    EndsAt s (fun n => (ev n).registerMethodFrom generic className v env) fun _ _ => True := by
  refine (ends_genericEnv hev hs henv generic).bind fun found t ht hfound => ?_
  cases found with
  | none => exact .fail ht.safe rfl
  | some definitionEnv =>
    refine (ends_methodOf hev (ht.meets hs) (ht.live henv) (ht.admits hv)).bind
      fun method u hu hmethod => ?_
    exact .plain (safe_registerMethod hu.safe generic className hmethod (hu.live (hfound _ rfl)))
      (Contract.keeps_registerMethod _ _ _ _) (SessionM.onlyFails_registerMethod _ _ _ _)

include henv in
theorem ends_method? (name : Symbol) {table : Option EnvId}
    (htable : ∀ id ∈ table, s.heap.contains id = true) :
    EndsAt s (fun n => (ev n).method? name env table) fun t found => ∀ f ∈ found, t.Admits f := by
  refine (ends_function? hev hs henv name).bind fun found t ht hfound => ?_
  cases found with
  | some method => exact .pure ht.safe hfound
  | none =>
    cases table with
    | none => exact .pure ht.safe fun _ h => nomatch h
    | some table =>
      refine .andThen ht.safe (reads_getLocal ht.safe (ht.live (htable _ rfl)) name)
        fun registered hregistered => ?_
      cases registered with
      | none => exact .pure ht.safe fun _ h => nomatch h
      | some value =>
        refine (ends_force hev (ht.meets hs) (hregistered value rfl)).bind
          fun value u hu hvalue => .pure hu.safe fun f hf => ?_
        split at hf
        · cases hf
          exact hvalue
        · cases hf

include henv in
theorem ends_methodForClasses (generic : String) {table : Option EnvId}
    (htable : ∀ id ∈ table, s.heap.contains id = true) (classes : List String) :
    EndsAt s (fun n => (ev n).methodForClasses generic env table classes) fun t found =>
      ∀ selected ∈ found, t.Admits selected.method := by
  induction classes generalizing s with
  | nil => exact .pure hs.safe fun _ h => nomatch h
  | cons className rest ih =>
    refine (ends_method? hev hs henv _ htable).bind fun found t ht hfound => ?_
    cases found with
    | some method =>
      refine .pure ht.safe fun selected hselected => ?_
      cases hselected
      exact hfound method rfl
    | none => exact ih (ht.meets hs) (ht.live henv) fun id hid => ht.live (htable id hid)

include henv in
theorem ends_methodOrDefault (generic : String) (classes : List String) {table : Option EnvId}
    (htable : ∀ id ∈ table, s.heap.contains id = true) :
    EndsAt s (fun n => (ev n).methodOrDefault generic classes env table) fun t found =>
      ∀ selected ∈ found, t.Admits selected.method := by
  refine (ends_methodForClasses hev hs henv generic htable classes).bind
    fun found t ht hfound => ?_
  cases found with
  | some selected => exact .pure ht.safe hfound
  | none =>
    refine (ends_method? hev (ht.meets hs) (ht.live henv) _ fun id hid =>
      ht.live (htable id hid)).bind
      fun method u hu hmethod => .pure hu.safe fun selected hselected => ?_
    obtain ⟨f, hf, rfl⟩ := Option.map_eq_some_iff.1 hselected
    exact hmethod f hf

include henv in
theorem ends_selectMethod (generic : String) (classes : List String)
    {definitionEnv : Option EnvId}
    (hdefinition : ∀ id ∈ definitionEnv, s.heap.contains id = true) :
    EndsAt s (fun n => (ev n).selectMethod generic classes env definitionEnv) fun t found =>
      ∀ selected ∈ found, t.Admits selected.method := by
  cases definitionEnv with
  | some definitionEnv =>
    exact .andThen hs.safe (reads_methodsTable hs.safe (hdefinition _ rfl)) fun table htable =>
      ends_methodOrDefault hev hs henv generic classes htable
  | none => exact ends_methodOrDefault hev hs henv generic classes fun _ h => nomatch h

include henv in
theorem ends_receiver (formals : ArgList) :
    EndsAt s (fun n => (ev n).receiver formals env) Admits := by
  unfold receiver
  cases formals.head?.bind (·.tag) with
  | none => exact .pure hs.safe admits_null
  | some first =>
    refine .andThen hs.safe (reads_getLocal hs.safe henv _) fun found hfound => ?_
    cases found with
    | none => exact .pure hs.safe admits_null
    | some value =>
      have hvalue := hfound value rfl
      refine .ite (fun _ => ?_) fun _ => .ite (fun _ => .fail hs.safe rfl) fun _ =>
        ends_force hev hs hvalue
      -- of what `...` stands for the first one counts
      rcases value with _ | _ | _ | _ | _ | (_ | ⟨arg, rest⟩) | _ | _ | _ | _
      case dots.cons =>
        rw [admits_dots, admitsArgs_cons] at hvalue
        exact ends_force hev hs hvalue.1
      all_goals exact .pure hs.safe admits_null

include henv in
theorem ends_firstMethod {table : Option EnvId}
    (htable : ∀ id ∈ table, s.heap.contains id = true) (names : List Symbol) :
    EndsAt s (fun n => (ev n).firstMethod env table names) fun t found =>
      ∀ f ∈ found, t.Admits f := by
  induction names generalizing s with
  | nil => exact .pure hs.safe fun _ h => nomatch h
  | cons name rest ih =>
    refine (ends_method? hev hs henv name htable).bind fun found t ht hfound => ?_
    cases found with
    | some method => exact .pure ht.safe hfound
    | none => exact ih (ht.meets hs) (ht.live henv) fun id hid => ht.live (htable id hid)

include hwithin in
theorem ends_dispatchOperator (op : String) (hargs : s.AdmitsArgs args) (hweight : 0 < b.weight) :
    EndsAt s (fun n => (ev n).dispatchOperator op env args) fun t found =>
      ∀ v ∈ found, t.Admits v := by
  refine .andThen hs.safe (Reads.get (P := (s = ·)) rfl) fun _ hsame => ?_
  subst hsame
  refine .andThen hs.safe (reads_methodsTable hs.safe hs.safe.registryBase) fun table htable => ?_
  refine (ends_firstMethod hev hs hwithin.live htable _).bind fun found t ht hfound => ?_
  cases found with
  | none => exact .pure ht.safe fun _ h => nomatch h
  | some method =>
    refine EndsAt.bind (P := AdmitsArgs) (.mapM ht.safe (fun h => h.admits) ?_)
      fun promised u hu hpromised => ?_
    · intro arg harg u hu
      have hvalue := hu.admits (ht.admits (hargs arg harg))
      exact (EndsAt.plain (safe_newKept hu.safe hvalue hvalue) (Contract.keeps_newKept _ _)
        (SessionM.onlyFails_newPromise _ _)).bind fun _ _ hw hpromise => .pure hw.safe hpromise
    · have hsu := ht.trans hu
      refine (EndsAt.plain (safe_newCall hu.safe (admits_symbol _) (hsu.args hargs))
        (Contract.keeps_newCall _ _) (SessionM.onlyFails_newCall _ _)).bind
          fun call w hw hcall => ?_
      refine (ends_newBare hw.safe _).bind fun generic r hr hgeneric => ?_
      have hur := hw.trans hr
      have hsr := hsu.trans hur
      let task : Task := .apply method call promised env [(⟨".Generic"⟩, generic)]
      have htask : r.AdmitsTask task := by
        refine ⟨hur.admits (hu.admits (hfound method rfl)), hr.admits hcall, hur.args hpromised,
          hsr.live hwithin.live, fun entry hentry => ?_⟩
        cases List.mem_singleton.1 hentry
        exact hgeneric
      -- nothing is left to be done of the method in this environment, if it is a function of values
      have hlighter : task.redispatches = true ∨ task.weight < b.weight :=
        (Task.redispatches_or_weight_eq_zero _ _ _ _ _).imp_right fun h => h.trans_lt hweight
      refine (hev.lighter task (hsr.meets hs) htask (hsr.within hwithin).rank hlighter).bind
        fun value q hq hvalue => .pure hq.safe fun v hv => ?_
      cases hv
      exact hvalue

/-- A method is applied in the environment of the caller, which is further out. -/
theorem ends_applyMethod (generic : String) (object : Value) {invocation : Invocation}
    (hinvocation : s.AdmitsInvocation invocation)
    (hcaller : s.rank invocation.callerEnv < b.rank) (env : EnvId) :
    EndsAt s (fun n => (ev n).applyMethod generic object invocation env) Admits := by
  refine (ends_genericEnv hev hs hinvocation.callerEnv generic).bind fun found t ht hfound => ?_
  have ht' := ht.onward.invocation hinvocation
  have hdefinition : ∀ id ∈ some (found.getD invocation.closure.env),
      t.heap.contains id = true := by
    intro id hid
    cases hid
    cases found with
    | none => exact (admits_closure.1 ht'.closure).1
    | some definitionEnv => exact hfound _ rfl
  refine (ends_selectMethod hev (ht.meets hs) ht'.callerEnv generic _ hdefinition).bind
    fun selected u hu hselected => ?_
  cases selected with
  | none => exact .fail hu.safe rfl
  | some selected =>
    refine (ends_newBare hu.safe _).bind fun name w hw hname => ?_
    refine (ends_classesValue hw.safe _).bind fun classes r hr hclasses => ?_
    have hur := hw.trans hr
    have hsr := (ht.trans hu).trans hur
    have hr' := hsr.onward.invocation hinvocation
    let task : Task := .apply selected.method invocation.call invocation.args invocation.callerEnv
      [(⟨".Generic"⟩, name), (⟨".Class"⟩, classes)]
    have htask : r.AdmitsTask task := by
      refine ⟨hur.admits (hselected selected rfl), hr'.call, hr'.args, hr'.callerEnv, ?_⟩
      intro entry hentry
      simp only [List.mem_cons, List.not_mem_nil, or_false] at hentry
      obtain rfl | rfl := hentry
      · exact hr.admits hname
      · exact hclasses
    have hrank : r.rank task.env < b.rank := by
      rw [hsr.rank]
      exact hcaller
    exact (hev.outward task (hsr.meets hs) htask hrank).bind fun value q hq hvalue =>
      .of_error ⟨0, fun _ _ => rfl⟩ (.refl hq.safe) hvalue nofun

include hwithin in
theorem ends_useMethod (generic : String) (object : Option Value) :
    EndsAt s (fun n => (ev n).useMethod generic object env) Admits := by
  refine .andThen hs.safe (Reads.get (P := (s = ·)) rfl) fun _ hsame => ?_
  subst hsame
  cases hfound : s.invocationOf? env with
  | none => exact .fail hs.safe rfl
  | some invocation =>
    have hi := hs.safe.invocation (List.mem_of_find?_eq_some hfound)
    have hcaller := (hs.founded.outward.rank_lt hfound).trans_le hwithin.rank
    cases object with
    | some object => exact ends_applyMethod hev hs generic object hi hcaller env
    | none =>
      refine (ends_receiver hev hs hwithin.live _).bind fun object t ht _ => ?_
      refine ends_applyMethod hev (ht.meets hs) generic object (ht.onward.invocation hi) ?_ env
      rw [ht.rank]
      exact hcaller

/-! ## Special forms -/

include hwithin in
theorem ends_evaluateBlock (hargs : s.AdmitsArgs args) (hafford : b.Affords args)
    (hv : s.Admits v) : EndsAt s (fun n => (ev n).evaluateBlock env args v) Admits := by
  induction args generalizing s v with
  | nil => exact .pure hs.safe hv
  | cons arg rest ih =>
    refine (ends_evaluateArg hev hs hwithin List.mem_cons_self hargs hafford).bind
      fun value t ht hvalue => ?_
    exact ih (ht.meets hs) (ht.within hwithin) (ht.args (admitsArgs_cons.1 hargs).2)
      (fun a ha => hafford a (.tail _ ha)) hvalue

omit hev hs in
theorem reads_twoArgs_afforded (hargs : s.AdmitsArgs call.args) (hafford : b.Affords call.args)
    (form : SpecialForm) : Session.Reads s (SessionM.twoArgs call form) fun values =>
      s.Admits values.2 ∧ 2 * sizeOf values.2 < b.weight := by
  unfold SessionM.twoArgs
  split
  · rename_i x y hform
    rw [hform] at hargs hafford
    exact .pure ⟨hargs y (by simp), Nat.lt_of_succ_lt (hafford y (by simp))⟩
  · exact .fail rfl

include hwithin in
theorem ends_assign (hargs : s.AdmitsArgs call.args) (hafford : b.Affords call.args) :
    EndsAt s (fun n => (ev n).assign call env) Admits := by
  refine .andThen hs.safe (reads_twoArgs_afforded hargs hafford .assign)
    fun (target, expr) ⟨hexpr, hweight⟩ => ?_
  refine .andThen hs.safe (reads_assignmentTarget target) fun name _ => ?_
  refine (ends_evaluate hev hs hwithin hexpr hweight).bind fun value t ht hvalue => ?_
  refine (ends_bindIn ht.safe (ht.live hwithin.live) name hvalue).bind fun _ u hu _ => ?_
  exact .pure hu.safe (hu.admits hvalue)

include hwithin in
theorem ends_assignOuter (hargs : s.AdmitsArgs call.args) (hafford : b.Affords call.args) :
    EndsAt s (fun n => (ev n).assignOuter call env) Admits := by
  refine .andThen hs.safe (reads_twoArgs_afforded hargs hafford .assignOuter)
    fun (target, expr) ⟨hexpr, hweight⟩ => ?_
  refine .andThen hs.safe (reads_assignmentTarget target) fun name _ => ?_
  refine (ends_evaluate hev hs hwithin hexpr hweight).bind fun value t ht hvalue => ?_
  refine .andThen ht.safe (Reads.get (P := (t = ·)) rfl) fun _ hsame => ?_
  subst hsame
  refine (EndsAt.plain (safe_assignNonLocal ht.safe (ht.live hwithin.live) name hvalue)
    (Contract.keeps_assignNonLocal _ _ _ _) (SessionM.onlyFails_onHeap _)).bind fun _ u hu _ => ?_
  exact .pure hu.safe (hu.admits hvalue)

include hwithin in
theorem ends_ifElse (hargs : s.AdmitsArgs call.args) (hafford : b.Affords call.args) :
    EndsAt s (fun n => (ev n).ifElse call env) Admits := by
  refine .andThen hs.safe (reads_requireArity call .ifElse 2 3) fun _ _ => ?_
  rcases hcall : call.args with _ | ⟨condition, _ | ⟨consequence, alternative⟩⟩
  · exact .pure hs.safe admits_null
  · exact .pure hs.safe admits_null
  · rw [hcall] at hargs hafford
    have hbranch {arg : Arg Value} (hmem : arg ∈ condition :: consequence :: alternative)
        {t : Session} (ht : s.Proceeds t) :
        EndsAt t (fun n => (ev n).evaluate arg.value env) Admits :=
      ends_evaluateArg hev (ht.meets hs) (ht.within hwithin) hmem (ht.args hargs) hafford
    refine (hbranch (by simp) (.refl hs.safe)).bind fun value t ht _ => ?_
    cases value.condition? with
    | none => exact .fail ht.safe rfl
    | some holds =>
      cases holds with
      | true => exact hbranch (by simp) ht
      | false =>
        cases alternative with
        | nil => exact .pure ht.safe admits_null
        | cons alternative _ => exact hbranch (by simp) ht

include hwithin in
theorem ends_forLoop (hcall : s.Admits (.call call)) (hafford : b.Affords call.args) :
    EndsAt s (fun n => (ev n).forLoop call env) Admits := by
  have hargs := (admits_call.1 hcall).2
  unfold forLoop
  rcases hform : call.args with
    _ | ⟨counter, _ | ⟨sequence, _ | ⟨body, _ | ⟨more, rest⟩⟩⟩⟩
  case cons.cons.cons.nil =>
    rw [hform] at hargs hafford
    rcases counter with ⟨tag, counter⟩
    cases counter with
    | symbol name =>
      refine (ends_evaluateArg hev hs hwithin (by simp) hargs hafford).bind
        fun value t ht hvalue => ?_
      have hbody : s.Admits body.value := hargs body (by simp)
      exact hev.lighter (.loop call env name value body.value) (ht.meets hs)
        ⟨ht.admits hcall, ht.live hwithin.live, hvalue, ht.admits hbody⟩
        (ht.within hwithin).rank (.inr (hafford body (by simp)))
    | _ => exact .fail hs.safe rfl
  all_goals exact .fail hs.safe rfl

include hwithin in
theorem ends_evaluateFirst (hargs : s.AdmitsArgs args) (hafford : b.Affords args) :
    EndsAt s (fun n => (ev n).evaluateFirst args env) Admits := by
  cases args with
  | nil => exact .pure hs.safe admits_null
  | cons arg _ => exact ends_evaluateArg hev hs hwithin List.mem_cons_self hargs hafford

include hwithin in
theorem ends_returnValue (hargs : s.AdmitsArgs call.args) (hafford : b.Affords call.args) :
    EndsAt s (fun n => (ev n).returnValue call env) Admits := by
  refine .andThen hs.safe (reads_requireArity call .returnValue 0 1) fun _ _ => ?_
  refine (ends_evaluateFirst hev hs hwithin hargs hafford).bind fun value t ht hvalue => ?_
  refine .andThen ht.safe (Reads.get (P := fun _ => True) trivial) fun _ _ => ?_
  exact .ite (fun _ => .of_error ⟨0, fun _ _ => rfl⟩ (.refl ht.safe) hvalue nofun)
    fun _ => .fail ht.safe rfl

include hwithin in
theorem ends_useMethodForm (hargs : s.AdmitsArgs call.args) (hafford : b.Affords call.args) :
    EndsAt s (fun n => (ev n).useMethodForm call env) Admits := by
  refine .andThen hs.safe (reads_requireArity call .useMethod 1 2) fun _ _ => ?_
  refine (ends_evaluateFirst hev hs hwithin hargs hafford).bind fun generic t ht _ => ?_
  refine .andThen ht.safe (reads_nameArg _ _) fun generic _ => ?_
  have hdefault : EndsAt t (fun n => (ev n).useMethod generic none env) Admits :=
    ends_useMethod hev (ht.meets hs) (ht.within hwithin) generic none
  rcases hform : call.args with _ | ⟨x, _ | ⟨object, _ | ⟨more, rest⟩⟩⟩
  case cons.cons.nil =>
    rw [hform] at hargs hafford
    refine (ends_evaluateArg hev (ht.meets hs) (ht.within hwithin) (by simp) (ht.args hargs)
      hafford).bind fun object u hu _ => ?_
    have htu := ht.trans hu
    exact ends_useMethod hev (htu.meets hs) (htu.within hwithin) generic (some object)
  all_goals exact hdefault

include hwithin in
theorem ends_runSpecial (form : SpecialForm) (hcall : s.Admits (.call call))
    (hweight : 2 * sizeOf (Value.call call) ≤ b.weight) :
    EndsAt s (fun n => (ev n).runSpecial form call env) Admits := by
  have hargs := (admits_call.1 hcall).2
  have hafford := Budget.affords_call hweight
  have hlive := hwithin.live
  cases form with
  | quote =>
    exact (EndsAt.reads hs.safe (reads_oneArg hargs .quote)).weaken fun _ _ _ ⟨hsame, hv⟩ =>
      hsame ▸ hv
  | function =>
    exact .plain (safe_makeFunction hs.safe hargs hlive) (Contract.keeps_makeFunction _ _)
      (SessionM.onlyFails_makeFunction _ _)
  | assign => exact ends_assign hev hs hwithin hargs hafford
  | assignEquals => exact ends_assign hev hs hwithin hargs hafford
  | assignOuter => exact ends_assignOuter hev hs hwithin hargs hafford
  | block => exact ends_evaluateBlock hev hs hwithin hargs hafford admits_null
  | ifElse => exact ends_ifElse hev hs hwithin hargs hafford
  | forLoop => exact ends_forLoop hev hs hwithin hcall hafford
  | returnValue => exact ends_returnValue hev hs hwithin hargs hafford
  | missing => exact ends_missingForm hs.safe hargs hlive
  | useMethod => exact ends_useMethodForm hev hs hwithin hargs hafford
  | receivedCall =>
    refine .pure hs.safe (admits_list.2 ?_)
    simp only [admitsArgs_cons, admitsArgs_nil, and_true]
    exact ⟨hcall, admits_environment.2 hlive⟩

/-! ## Builtins -/

include henv in
theorem ends_registerMethodBuiltin (hargs : s.AdmitsArgs args) :
    EndsAt s (fun n => (ev n).registerMethodBuiltin args env) Admits := by
  refine .andThen hs.safe (reads_argsByName hargs _) fun values hvalues => ?_
  refine .andThen hs.safe (reads_requireArg _ hvalues 0) fun generic _ => ?_
  refine .andThen hs.safe (reads_nameArg _ _) fun generic _ => ?_
  refine .andThen hs.safe (reads_requireArg _ hvalues 1) fun className _ => ?_
  refine .andThen hs.safe (reads_nameArg _ _) fun className _ => ?_
  refine .andThen hs.safe (reads_requireArg _ hvalues 2) fun method hmethod => ?_
  refine .andThen hs.safe (reads_environmentArg henv hvalues 3) fun env henv => ?_
  exact (ends_registerMethodFrom hev hs henv generic className hmethod).bind fun _ t ht _ =>
    .pure ht.safe admits_null

include henv in
theorem ends_runNamespaceQuery (query : NamespaceQuery) (hargs : s.AdmitsArgs args) :
    EndsAt s (fun n => (ev n).runNamespaceQuery query args env) Admits := by
  have honly := reads_onlyArg hargs query.name
  have hget : Session.Reads s (get : SessionM Session) (s = ·) := .get rfl
  cases query with
  | registerMethod => exact ends_registerMethodBuiltin hev hs henv hargs
  | load =>
    refine .andThen hs.safe (honly "name") fun _ _ => ?_
    refine .andThen hs.safe (reads_nameArg _ _) fun name _ => ?_
    refine (EndsAt.plain (safe_loadNamespace hs.safe _) (Contract.keeps_loadNamespace _)
      (SessionM.onlyFails_modifyGet _)).bind fun ns t ht hns => ?_
    exact .pure ht.safe (admits_environment.2 hns)
  | isNamespace =>
    refine .andThen hs.safe (honly "ns") fun value _ => ?_
    cases value with
    | environment id => exact .andThen hs.safe hget fun _ _ => ends_newBare hs.safe _
    | _ => exact ends_newBare hs.safe _
  | loaded => exact .andThen hs.safe hget fun _ _ => ends_newBare hs.safe _
  | nameOf =>
    refine .andThen hs.safe (honly "ns") fun value _ => ?_
    refine (ends_namespaceOf hs.safe value).bind fun ns t ht _ => ?_
    exact .plain (safe_namespaceName ht.safe ns) (Contract.keeps_namespaceName _)
      (SessionM.onlyFails_namespaceName _)
  | exportsOf =>
    refine .andThen hs.safe (honly "ns") fun value _ => ?_
    exact (ends_namespaceOf hs.safe value).bind fun ns t ht _ => ends_newBare ht.safe _
  | importsOf =>
    refine .andThen hs.safe (honly "ns") fun value _ => ?_
    refine (ends_namespaceOf hs.safe value).bind fun ns t ht _ => ?_
    refine .andThen ht.safe (Reads.get (P := fun _ => True) trivial) fun _ _ => ?_
    refine .andThen ht.safe (Reads.ofExcept (P := fun _ => True) (plain_imports _ _)
      fun _ _ => trivial) fun _ _ => ?_
    exact .pure ht.safe admits_null
  | lookUp =>
    refine .andThen hs.safe (honly "name") fun _ _ => ?_
    refine .andThen hs.safe (reads_nameArg _ _) fun name _ => ?_
    refine .andThen hs.safe hget fun _ hsame => ?_
    subst hsame
    cases hid : s.namespaces.registered? name with
    | none => exact .pure hs.safe admits_null
    | some id => exact .pure hs.safe (admits_environment.2 (hs.safe.registered? hid))

include hwithin in
theorem ends_runArithmetic (op : BinaryOp) (hargs : s.AdmitsArgs args) (hweight : 0 < b.weight) :
    EndsAt s (fun n => (ev n).runArithmetic op args env) Admits := by
  refine (ends_dispatchOperator hev hs hwithin op.spelling hargs hweight).bind
    fun found t ht hfound => ?_
  cases found with
  | some value => exact .pure ht.safe (hfound value rfl)
  | none =>
    exact ends_deliver ht.safe (Builtin.plain_arithmetic op args)
      (yields_arithmetic op (ht.args hargs))

include hwithin in
theorem ends_runEager {builtin : EagerBuiltin} (hquiet : builtin ≠ .introspect .collect)
    (hargs : s.AdmitsArgs args) (hweight : ∀ op, builtin = .arithmetic op → 0 < b.weight) :
    EndsAt s (fun n => (ev n).runEager builtin args env) Admits := by
  have hlive := hwithin.live
  have hsafe := hs.safe
  cases builtin with
  | arithmetic op => exact ends_runArithmetic hev hs hwithin op hargs (hweight op rfl)
  | compare op => exact ends_deliver hsafe (Builtin.plain_compare _ _) (yields_compare _ _)
  | sequence => exact ends_deliver hsafe (Builtin.plain_sequence _) (yields_sequence _)
  | combine => exact ends_deliver hsafe (Builtin.plain_combine _) (yields_combine _)
  | length => exact ends_deliver hsafe (Builtin.plain_length _) (yields_length _)
  | math f => exact ends_deliver hsafe (Builtin.plain_math _ _) (yields_math f hargs)
  | reduce op => exact ends_deliver hsafe (Builtin.plain_reduce _ _) (yields_reduce _ _)
  | margin op => exact ends_deliver hsafe (Builtin.plain_margin _ _) (yields_margin _ _)
  | withAttributes =>
    exact ends_deliver hsafe (Builtin.plain_withAttributes _) (yields_withAttributes hargs)
  | attributeOf =>
    exact ends_deliver hsafe (Builtin.plain_attributeOf _) (yields_attributeOf hargs)
  | classOf => exact ends_deliver hsafe (Builtin.plain_classOf _) (yields_classOf hargs)
  | environmentOf =>
    exact ends_deliver hsafe (Builtin.plain_environmentOf _ _) (yields_environmentOf hargs hlive)
  | namespaces query => exact ends_runNamespaceQuery hev hs hlive query hargs
  | introspect query =>
    have hquery : query ≠ .collect := fun h => hquiet (congrArg _ h)
    exact .plain (safe_introspect hsafe hquery hargs env) (Contract.keeps_introspect _ _ _)
      (SessionM.onlyFails_introspect hquery _ _)

/-! ## Expressions -/

include henv in
theorem ends_evaluateSymbol (name : Symbol) :
    EndsAt s (fun n => (ev n).evaluateSymbol name env) Admits := by
  refine .ite (fun _ => .fail hs.safe rfl) fun _ => .ite (fun _ => .fail hs.safe rfl) fun _ => ?_
  refine .andThen hs.safe (reads_lookup hs.safe henv name) fun value hvalue => ?_
  have hforce : EndsAt s (fun n => do
      let value ← (ev n).force value
      if value.isMissingArg then SessionM.fail (.argumentMissing name) else return value) Admits :=
    (ends_force hev hs hvalue).bind fun value t ht hvalue =>
      .ite (fun _ => .fail ht.safe rfl) fun _ => .pure ht.safe hvalue
  cases value with
  | dots args => exact .fail hs.safe rfl
  | _ => exact hforce

include hwithin in
theorem ends_functionOf (hcall : s.Admits (.call call))
    (hweight : 2 * sizeOf (Value.call call) ≤ b.weight) :
    EndsAt s (fun n => (ev n).functionOf call env) Admits := by
  have hlt := sizeOf_function_lt call
  have hevaluate : EndsAt s (fun n => (ev n).evaluate call.function env) Admits :=
    ends_evaluate hev hs hwithin (admits_call.1 hcall).1 (by omega)
  unfold functionOf
  cases hfunction : call.function with
  | symbol name => exact ends_requireFunction hev hs hwithin.live _
  | _ =>
    rw [hfunction] at hevaluate
    exact hevaluate

include hwithin in
theorem ends_evaluateCall (hcall : s.Admits (.call call))
    (hweight : 2 * sizeOf (Value.call call) ≤ b.weight) :
    EndsAt s (fun n => (ev n).evaluateCall call env) Admits := by
  have hargs := (admits_call.1 hcall).2
  have hpos : 0 < b.weight := by
    have := sizeOf_function_lt call
    omega
  refine (ends_functionOf hev hs hwithin hcall hweight).bind fun function t ht hfunction => ?_
  have hmeets := ht.meets hs
  have hwithin := ht.within hwithin
  cases function with
  | closure closure =>
    refine (EndsAt.plain (safe_suspendArgs ht.safe (ht.args hargs) hwithin.live)
      (Contract.keeps_suspendArgs _ _) (SessionM.onlyFails_suspendArgs _ _)).bind
        fun promised u hu hpromised => ?_
    exact ends_invoke hev (hu.meets hmeets) (hu.live hwithin.live) (hu.admits hfunction)
      (hu.admits (ht.admits hcall)) hpromised fun _ h => nomatch h
  | builtin identity builtin =>
    have hquiet := hfunction.builtin
    cases builtin with
    | special form => exact ends_runSpecial hev hmeets hwithin form (ht.admits hcall) hweight
    | eager builtin =>
      refine (ends_argValues hev hmeets hwithin (ht.args hargs)
        (Budget.affords_call hweight)).bind fun values u hu hvalues => ?_
      exact ends_runEager hev (hu.meets hmeets) (hu.within hwithin)
        (fun h => hquiet (congrArg _ h)) hvalues fun _ _ => hpos
  | _ => exact .fail ht.safe rfl

include hwithin in
theorem ends_evaluateExpr (hv : s.Admits v) (hweight : 2 * sizeOf v ≤ b.weight) :
    EndsAt s (fun n => (ev n).evaluateExpr v env) Admits := by
  cases v with
  | symbol name => exact ends_evaluateSymbol hev hs hwithin.live _
  | call call => exact ends_evaluateCall hev hs hwithin hv hweight
  | promise id => exact ends_demand hev hs hv
  | dots args => exact .fail hs.safe rfl
  | _ => exact .pure hs.safe hv

include hwithin in
theorem ends_applyValue {function : Value} (hfunction : s.Admits function)
    (hcall : s.Admits (.call call)) (hargs : s.AdmitsArgs args)
    {extra : List (Symbol × Value)} (hextra : ∀ entry ∈ extra, s.Admits entry.2)
    (hweight : (Task.apply function call args env extra).weight ≤ b.weight) :
    EndsAt s (fun n => (ev n).applyValue function call args env extra) Admits := by
  cases function with
  | closure closure => exact ends_invoke hev hs hwithin.live hfunction hcall hargs hextra
  | builtin identity builtin =>
    have hquiet := hfunction.builtin
    cases builtin with
    | special form => exact ends_runSpecial hev hs hwithin form hcall hweight
    | eager builtin =>
      refine (ends_forceArgs hev hs hargs).bind fun values t ht hvalues => ?_
      refine ends_runEager hev (ht.meets hs) (ht.within hwithin) (fun h => hquiet (congrArg _ h))
        hvalues fun op hop => ?_
      subst hop
      exact hweight
  | _ => exact .fail hs.safe rfl

end Evaluator

end CallByNeed
