import CallByNeed.Proofs.Iteration

/-!
# A loop variable that hides a function

A loop variable is bound in the frame of the loop, and hides a function of that
name there.  If no other function of the name is left, an iteration fails as
soon as it comes to a call of it (`LowersBody.fails`), whatever the body was
read as before.
-/

namespace CallByNeed

/-! ## Failing with enough fuel -/

/-- With enough fuel, evaluating the expression fails with this error. -/
def FailsWith (s : Session) (env : EnvId) (expr : Value) (e : EvalError) : Prop :=
  Eventually fun n => ∃ t, (evaluator n).evaluate expr env s = (.error (.failure e), t)

/-- With enough fuel, evaluating one of the arguments fails with this error. -/
def ArgsFailWith (s : Session) (env : EnvId) (args : ArgList) (e : EvalError) : Prop :=
  Eventually fun n => ∃ t, (evaluator n).argValues args env s = (.error (.failure e), t)

section

variable {s t : Session} {env : EnvId} {name : Symbol} {id identity : Identity} {args : ArgList}
  {e : EvalError}

theorem fails_unresolved (hname : s.resolve? env name = some none) :
    FailsWith s env (.call ⟨id, .symbol name, args⟩) (.functionNotFound name) := by
  refine (Eventually.of_forall fun _ => trivial).succ fun n _ => ⟨s, ?_⟩
  change (evaluator n).evaluateCall ⟨id, .symbol name, args⟩ env s = _
  have hfunction : (evaluator n).functionOf ⟨id, .symbol name, args⟩ env s =
      (.error (.failure (.functionNotFound name)), s) := by
    change (evaluator n).requireFunction env name s = _
    rw [Evaluator.requireFunction,
      SessionM.bind_run_ok ((evaluator n).function?_run_quiet hname)]
    rfl
  rw [Evaluator.evaluateCall, SessionM.bind_run_error hfunction]

theorem fails_eager {builtin : EagerBuiltin}
    (hname : s.resolve? env name = some (some (.builtin identity (.eager builtin))))
    (hargs : ArgsFailWith s env args e) : FailsWith s env (.call ⟨id, .symbol name, args⟩) e := by
  refine hargs.succ fun n ⟨t, hvalues⟩ => ⟨t, ?_⟩
  rw [evaluate_eager_run n hname, SessionM.bind_run_error hvalues]

theorem fails_assign {target : Symbol} {expr : Value}
    (hname : s.resolve? env name = some (some (.builtin identity (.special .assign))))
    (hmissing : target.isMissing = false) (hellipsis : target.isEllipsis = false)
    (h : FailsWith s env expr e) :
    FailsWith s env (.call ⟨id, .symbol name, [.untagged (.symbol target), .untagged expr]⟩) e := by
  refine h.succ fun n ⟨t, hexpr⟩ => ⟨t, ?_⟩
  rw [evaluate_assign_run n hname hmissing hellipsis, SessionM.bind_run_error hexpr]

theorem fails_block {statement : Value}
    (hname : s.resolve? env name = some (some (.builtin identity (.special .block))))
    (h : FailsWith s env statement e) :
    FailsWith s env (.call ⟨id, .symbol name, [.untagged statement]⟩) e :=
  h.succ fun n ⟨t, hstatement⟩ => ⟨t, (evaluate_block_run n hname).trans hstatement⟩

theorem argsFail_head {arg : Arg Value} {rest : ArgList} (hplain : arg.isPlain = true)
    (h : FailsWith s env arg.value e) : ArgsFailWith s env (arg :: rest) e := by
  refine h.imp fun n ⟨t, hvalue⟩ => ⟨t, ?_⟩
  rw [argValues_cons_run hplain, SessionM.bind_run_error hvalue]

theorem argsFail_tail {arg : Arg Value} {rest : ArgList} {value : Value}
    (hplain : arg.isPlain = true) (h : Evaluates s t env arg.value value)
    (hrest : ArgsFailWith t env rest e) : ArgsFailWith s env (arg :: rest) e := by
  refine h.imp₂ hrest fun n hvalue ⟨u, hfails⟩ => ⟨u, ?_⟩
  rw [argValues_cons_run hplain, SessionM.bind_run_ok hvalue, SessionM.bind_run_error hfails]

end

/-! ## A body that calls the loop variable -/

section

variable {l : LoopSetting} {s : Session} {x : Float} {i : Nat}

/-- The loop variable stands for no function, and an iteration could be evaluated if the body did
    not call it. -/
structure LoopSetting.Hides (l : LoopSetting) (s : Session) (x : Float) : Prop where
  holds : { l with names := l.names.filter (· ≠ l.var) }.Holds s x
  hidden : s.resolve? l.env l.var = some none

theorem LoopSetting.Hides.subset {names : List Symbol} (hnames : names ⊆ l.names)
    (hvar : l.var ∉ names) : names ⊆ l.names.filter (· ≠ l.var) := fun name hname => by
  have hne : name ≠ l.var := fun h => hvar (h ▸ hname)
  exact List.mem_filter.2 ⟨hnames hname, by simpa using hne⟩

mutual

/-- An increment that calls the loop variable cannot be evaluated. -/
theorem Lowers.fails (hs : l.Hides s x) (hown : l.kernels.IsOwn) (hi : l.index[i]? = some x)
    {expr : Value} {e : LoopExpr} {lane : Lane} (h : Lowers l.op l.var l.accumulator expr e)
    (hvar : l.var ∈ expr.calledNames) (hnames : expr.calledNames ⊆ l.names)
    (hlane : e.evaluate l.index l.given l.kernels = .ok lane) (m : Nat) :
    FailsWith (s.counting m) l.env expr (.functionNotFound l.var) := by
  cases h with
  | index => simp [Value.calledNames] at hvar
  | constant => simp [Value.calledNames] at hvar
  | invariant => simp [Value.calledNames] at hvar
  | @apply id name args operation operands e hplain hop hargs he =>
    rw [Value.calledNames_call] at hvar hnames
    -- either this call fails to find its function, or one of its arguments fails before it is made
    by_cases hname : name = l.var
    · subst hname
      exact fails_unresolved ((s.resolve?_counting m l.env _).trans hs.hidden)
    · have hargsVar : l.var ∈ Value.argsCalledNames args :=
        (List.mem_cons.1 hvar).resolve_left (Ne.symm hname)
      have hother : name ∈ l.names.filter (· ≠ l.var) :=
        List.mem_filter.2 ⟨hnames List.mem_cons_self, by simpa using hname⟩
      obtain ⟨identity, builtin, hresolve, hbuiltin⟩ := hs.holds.ops name hother _ hop
      obtain ⟨hlt, -⟩ := Array.getElem?_eq_some_iff.1 hi
      obtain ⟨builtin, lanes, rfl, hlanes, -⟩ :=
        Builtin.carries_of_expr? hown hbuiltin he hlane hlt
      refine fails_eager ((s.resolve?_counting m l.env name).trans hresolve) ?_
      exact LowersAll.fails hs hown hi hargs hargsVar (List.subset_of_cons_subset hnames) hplain
        hlanes m
termination_by sizeOf expr

theorem LowersAll.fails (hs : l.Hides s x) (hown : l.kernels.IsOwn) (hi : l.index[i]? = some x)
    {args : ArgList} {operands : List LoopExpr} {lanes : List Lane}
    (h : LowersAll l.op l.var l.accumulator args operands)
    (hvar : l.var ∈ Value.argsCalledNames args) (hnames : Value.argsCalledNames args ⊆ l.names)
    (hplain : args.all Arg.isPlain = true)
    (hlanes : LoopExpr.evaluateAll l.index l.given l.kernels operands = .ok lanes) (m : Nat) :
    ArgsFailWith (s.counting m) l.env args (.functionNotFound l.var) := by
  cases h with
  | nil => cases hvar
  | @cons tag value rest e operands hvalue hrest =>
    rw [Value.argsCalledNames] at hvar hnames
    obtain ⟨hvalueNames, hrestNames⟩ := List.append_subset.1 hnames
    obtain ⟨hfirst, hothers⟩ : Arg.isPlain ⟨tag, value⟩ = true ∧ rest.all Arg.isPlain = true := by
      simpa using hplain
    obtain ⟨lane, others, hlane, hrestLanes, rfl⟩ := LoopExpr.evaluateAll_cons hlanes
    -- the arguments in front of the first one that calls the variable still have their values
    by_cases hcalled : l.var ∈ value.calledNames
    · exact argsFail_head hfirst (Lowers.fails hs hown hi hvalue hcalled hvalueNames hlane m)
    · obtain ⟨-, hmissing, hellipsis⟩ := Arg.isPlain_iff.1 hfirst
      obtain ⟨v, identity, m', -, heval⟩ :=
        hvalue.evaluates hs.holds hown hi (LoopSetting.Hides.subset hvalueNames hcalled) hmissing
          hellipsis hlane m
      have hrestVar := (List.mem_append.1 hvar).resolve_left hcalled
      exact argsFail_tail hfirst heval
        (LowersAll.fails hs hown hi hrest hrestVar hrestNames hothers hrestLanes m')
termination_by sizeOf args

end

variable {e : LoopExpr} {lane : Lane} {v : DoubleVector}

theorem Accumulates.fails (hs : l.Hides s x) (hown : l.kernels.IsOwn) (hi : l.index[i]? = some x)
    {increment statement : Value} (h : Accumulates l.op l.var l.accumulator increment statement)
    (hlowers : Lowers l.op l.var l.accumulator increment e)
    (hvar : l.var ∈ statement.calledNames) (hnames : statement.calledNames ⊆ l.names)
    (hlane : e.evaluate l.index l.given l.kernels = .ok lane)
    (hstart : s.numbers? l.env l.accumulator = some v) (m : Nat) :
    FailsWith (s.counting m) l.env statement (.functionNotFound l.var) := by
  have hhidden : (s.counting m).resolve? l.env l.var = some none :=
    (s.resolve?_counting m l.env _).trans hs.hidden
  -- a function other than the loop variable that is called outside of the increment
  have hop {name : Symbol} {op : LoopOp} (hcalled : name ∈ l.names) (hne : name ≠ l.var)
      (hop : l.op name = some op) : ∃ identity builtin,
        (s.counting m).resolve? l.env name = some (some (.builtin identity builtin)) ∧
          builtin.loopOp? = some op := by
    obtain ⟨identity, builtin, hresolve, hbuiltin⟩ :=
      hs.holds.ops name (List.mem_filter.2 ⟨hcalled, by simpa using hne⟩) op hop
    exact ⟨identity, builtin, (s.resolve?_counting m l.env name).trans hresolve, hbuiltin⟩
  cases h with
  | @intro id₁ id₂ assign plus args operands hassign hplus hargs hoperands _ hmissing hellipsis =>
    rw [Value.calledNames_call, argsCalledNames_of_accumulation hargs hoperands] at hvar hnames
    obtain ⟨rfl, -⟩ := eq_of_plainValues? hargs
    obtain ⟨rfl, hsupplied⟩ := eq_of_plainValues? hoperands
    obtain ⟨hincrementMissing, hincrementEllipsis⟩ := hsupplied increment (by simp)
    -- `<-` is looked up first, then `+`, then the increment is evaluated: the first of them that is
    -- called by the name of the variable fails
    by_cases hname : assign = l.var
    · subst hname
      exact fails_unresolved hhidden
    obtain ⟨a₁, b₁, hassign, hop₁⟩ := hop (hnames (by simp)) hname hassign
    obtain rfl := Builtin.eq_of_loopOp?_assign hop₁
    refine fails_assign hassign hmissing hellipsis ?_
    by_cases hname' : plus = l.var
    · subst hname'
      exact fails_unresolved hhidden
    obtain ⟨a₂, b₂, hplus, hop₂⟩ := hop (hnames (by simp)) hname' hplus
    obtain rfl := Builtin.eq_of_loopOp?_binary hop₂
    have hincrementVar : l.var ∈ increment.calledNames := by
      simpa [Ne.symm hname, Ne.symm hname'] using hvar
    have hincrementNames : increment.calledNames ⊆ l.names :=
      List.subset_of_cons_subset (List.subset_of_cons_subset hnames)
    have hstart' : (s.counting m).numbers? l.env l.accumulator = some v := hstart
    obtain ⟨_, hread⟩ := evaluates_symbol hstart' hmissing hellipsis
    have hfails := hlowers.fails hs hown hi hincrementVar hincrementNames hlane m
    refine fails_eager hplus (argsFail_tail (Arg.isPlain_untagged hmissing hellipsis) hread ?_)
    exact argsFail_head (Arg.isPlain_untagged hincrementMissing hincrementEllipsis) hfails

/-- A loop body that calls the loop variable cannot be evaluated. -/
theorem LowersBody.fails (hs : l.Hides s x) (hown : l.kernels.IsOwn) (hi : l.index[i]? = some x)
    {body : Value} (h : LowersBody l.op l.var l.accumulator body e)
    (hvar : l.var ∈ body.calledNames) (hnames : body.calledNames ⊆ l.names)
    (hlane : e.evaluate l.index l.given l.kernels = .ok lane)
    (hstart : s.numbers? l.env l.accumulator = some v) (m : Nat) :
    FailsWith (s.counting m) l.env body (.functionNotFound l.var) := by
  cases h with
  | statement hstatement hincrement =>
    exact hstatement.fails hs hown hi hincrement hvar hnames hlane hstart m
  | @block id args increment statement e hblock hargs hstatement hincrement =>
    rw [Value.calledNames_call, argsCalledNames_of_plainValues hargs] at hvar hnames
    obtain ⟨rfl, -⟩ := eq_of_plainValues? hargs
    by_cases hname : (⟨"\x7b"⟩ : Symbol) = l.var
    · rw [hname]
      exact fails_unresolved ((s.resolve?_counting m l.env _).trans hs.hidden)
    obtain ⟨b, builtin, hresolve, hop⟩ := hs.holds.ops ⟨"\x7b"⟩
      (List.mem_filter.2 ⟨hnames (by simp), by simpa using hname⟩) _ hblock
    obtain rfl := Builtin.eq_of_loopOp?_block hop
    have hstatementVar : l.var ∈ statement.calledNames := by
      simpa [Ne.symm hname] using hvar
    have hstatementNames : statement.calledNames ⊆ l.names := by
      simpa using List.subset_of_cons_subset hnames
    exact fails_block ((s.resolve?_counting m l.env _).trans hresolve)
      (hstatement.fails hs hown hi hincrement hstatementVar hstatementNames hlane hstart m)

end

end CallByNeed
