import CallByNeed.Proofs.FusedRun
import CallByNeed.Proofs.Operations

/-!
# One iteration of a loop

`Evaluates` says what an expression comes to once there is enough fuel.  In a
session that is fit for an iteration (`LoopSetting.Holds`), an increment that is
read as a loop expression evaluates to the numbers that the lane of the
expression has in that iteration (`Lowers.evaluates`), and the body adds them to
the accumulator (`LowersBody.evaluates`).
-/

namespace CallByNeed

/-! ## Evaluation with enough fuel -/

/-- The property holds for all fuel from some amount on. -/
def Eventually (p : Nat → Prop) : Prop := ∃ k, ∀ n, k ≤ n → p n

namespace Eventually

variable {p q r : Nat → Prop}

theorem of_forall (h : ∀ n, p n) : Eventually p := ⟨0, fun n _ => h n⟩

theorem imp (hp : Eventually p) (h : ∀ n, p n → q n) : Eventually q := by
  obtain ⟨k, hp⟩ := hp
  exact ⟨k, fun n hn => h n (hp n hn)⟩

theorem imp₂ (hp : Eventually p) (hq : Eventually q) (h : ∀ n, p n → q n → r n) :
    Eventually r := by
  obtain ⟨k, hp⟩ := hp
  obtain ⟨k', hq⟩ := hq
  exact ⟨max k k', fun n hn => h n (hp n (by omega)) (hq n (by omega))⟩

/-- One task inside another takes one more unit of fuel. -/
theorem succ (hp : Eventually p) (h : ∀ n, p n → q (n + 1)) : Eventually q := by
  obtain ⟨k, hp⟩ := hp
  refine ⟨k + 1, fun n hn => ?_⟩
  obtain ⟨n, rfl⟩ := Nat.exists_eq_add_of_le' (Nat.le_trans (Nat.le_add_left 1 k) hn)
  exact h n (hp n (by omega))

end Eventually

/-- With enough fuel, the expression has this value, and `t` is the session after that. -/
def Evaluates (s t : Session) (env : EnvId) (expr value : Value) : Prop :=
  Eventually fun n => (evaluator n).evaluate expr env s = (.ok value, t)

/-- With enough fuel, the arguments have these values, and `t` is the session after that. -/
def EvaluatesArgs (s t : Session) (env : EnvId) (args values : ArgList) : Prop :=
  Eventually fun n => (evaluator n).argValues args env s = (.ok values, t)

namespace Session

variable {s : Session} {env : EnvId} {name : Symbol}

theorem resolve?_counting (s : Session) (identities : Nat) (env : EnvId) (name : Symbol) :
    (s.counting identities).resolve? env name = s.resolve? env name :=
  resolve?_congr (s := s) (t := s.counting identities) rfl rfl env

theorem eq_of_numbers? {v : DoubleVector} (h : s.numbers? env name = some v) :
    (∃ identity, s.valueOf? env name = some (v.toValue identity)) ∧
      v.attributes.contains .classAttribute = false := by
  obtain ⟨value, hvalue, hv⟩ := Option.bind_eq_some_iff.1 h
  obtain ⟨⟨identity, rfl⟩, hclass⟩ := Value.eq_of_unclassedDoubles? hv
  exact ⟨⟨identity, hvalue⟩, hclass⟩

end Session

/-! ## What calls come to -/

section

variable {s : Session} {env : EnvId} {name : Symbol} {id identity : Identity} {args : ArgList}
  (fuel : Nat)

theorem functionOf_run {function : Value} (hname : s.resolve? env name = some (some function))
    (ev : Evaluator) : ev.functionOf ⟨id, .symbol name, args⟩ env s = (.ok function, s) := by
  change ev.requireFunction env name s = _
  rw [Evaluator.requireFunction, SessionM.bind_run_ok (ev.function?_run_quiet hname)]
  rfl

theorem evaluate_eager_run {builtin : EagerBuiltin}
    (hname : s.resolve? env name = some (some (.builtin identity (.eager builtin)))) :
    (evaluator (fuel + 1)).evaluate (.call ⟨id, .symbol name, args⟩) env s =
      (do
        let values ← (evaluator fuel).argValues args env
        (evaluator fuel).runEager builtin values env) s := by
  change (evaluator fuel).evaluateCall ⟨id, .symbol name, args⟩ env s = _
  rw [Evaluator.evaluateCall, SessionM.bind_run_ok (functionOf_run hname _)]

theorem evaluate_special_run {form : SpecialForm}
    (hname : s.resolve? env name = some (some (.builtin identity (.special form)))) :
    (evaluator (fuel + 1)).evaluate (.call ⟨id, .symbol name, args⟩) env s =
      (evaluator fuel).runSpecial form ⟨id, .symbol name, args⟩ env s := by
  change (evaluator fuel).evaluateCall ⟨id, .symbol name, args⟩ env s = _
  rw [Evaluator.evaluateCall, SessionM.bind_run_ok (functionOf_run hname _)]

/-- An assignment evaluates its right side and binds the value. -/
theorem evaluate_assign_run {target : Symbol} {expr : Value}
    (hname : s.resolve? env name = some (some (.builtin identity (.special .assign))))
    (hmissing : target.isMissing = false) (hellipsis : target.isEllipsis = false) :
    (evaluator (fuel + 1)).evaluate
        (.call ⟨id, .symbol name, [.untagged (.symbol target), .untagged expr]⟩) env s =
      (do
        let value ← (evaluator fuel).evaluate expr env
        SessionM.bindIn env target value
        return value) s := by
  have htarget : SessionM.assignmentTarget (.symbol target) s = (.ok target, s) := by
    simp [SessionM.assignmentTarget, hmissing, hellipsis]
  rw [evaluate_special_run fuel hname]
  exact SessionM.bind_run_ok htarget _

theorem evaluate_block_run {statement : Value}
    (hname : s.resolve? env name = some (some (.builtin identity (.special .block)))) :
    (evaluator (fuel + 1)).evaluate (.call ⟨id, .symbol name, [.untagged statement]⟩) env s =
      (evaluator fuel).evaluate statement env s := by
  rw [evaluate_special_run fuel hname]
  exact congrFun (bind_pure _) s

theorem argValues_cons_run {arg : Arg Value} (hplain : arg.isPlain = true) (rest : ArgList)
    (ev : Evaluator) :
    ev.argValues (arg :: rest) env = (do
      let value ← ev.evaluate arg.value env
      return .untagged value :: (← ev.argValues rest env)) := by
  obtain ⟨tag, expr⟩ := arg
  obtain ⟨rfl, hmissing, hellipsis⟩ := Arg.isPlain_iff.1 hplain
  rw [Evaluator.argValues, hmissing, hellipsis]
  simp only [Bool.false_eq_true, if_false, pure_bind]
  rfl

end

section

variable {s t u : Session} {env : EnvId} {name : Symbol} {id identity : Identity} {value : Value}

/-- A variable that stands for numbers evaluates to them. -/
theorem evaluates_symbol {v : DoubleVector} (h : s.numbers? env name = some v)
    (hmissing : name.isMissing = false) (hellipsis : name.isEllipsis = false) :
    ∃ identity, Evaluates s s env (.symbol name) (v.toValue identity) := by
  obtain ⟨⟨identity, hvariable⟩, -⟩ := Session.eq_of_numbers? h
  refine ⟨identity, (Eventually.of_forall fun _ => trivial).succ fun n _ => ?_⟩
  change (evaluator n).evaluateSymbol name env s = _
  unfold Session.valueOf? at hvariable
  rcases hlookup : s.heap.lookup env name with e | bound <;> rw [hlookup] at hvariable
  · cases hvariable
  have hask : SessionM.askHeap (fun h => h.lookup env name) s = (.ok bound, s) :=
    SessionM.askHeap_run_ok hlookup
  have hforce := (evaluator n).force_run_known hvariable
  rw [Evaluator.evaluateSymbol, hmissing, hellipsis]
  simp only [Bool.false_eq_true, if_false]
  rw [SessionM.bind_run_ok hask]
  split
  · cases hvariable
  · rw [SessionM.bind_run_ok hforce]
    rfl

theorem evaluates_vector (v : Vec) (s : Session) (env : EnvId) :
    Evaluates s s env (.vector v) (.vector v) :=
  (Eventually.of_forall fun _ => trivial).succ fun _ _ => rfl

theorem evaluatesArgs_nil (s : Session) (env : EnvId) : EvaluatesArgs s s env [] [] :=
  .of_forall fun _ => rfl

theorem evaluatesArgs_cons {arg : Arg Value} {rest values : ArgList}
    (hplain : arg.isPlain = true) (h : Evaluates s t env arg.value value)
    (hrest : EvaluatesArgs t u env rest values) :
    EvaluatesArgs s u env (arg :: rest) (.untagged value :: values) := by
  refine h.imp₂ hrest fun n hvalue hvalues => ?_
  rw [argValues_cons_run hplain, SessionM.bind_run_ok hvalue, SessionM.bind_run_ok hvalues]
  rfl

theorem evaluates_eager {args values : ArgList} {builtin : EagerBuiltin}
    (hname : s.resolve? env name = some (some (.builtin identity (.eager builtin))))
    (hargs : EvaluatesArgs s t env args values)
    (hrun : ∀ ev : Evaluator, ev.runEager builtin values env t = (.ok value, u)) :
    Evaluates s u env (.call ⟨id, .symbol name, args⟩) value := by
  refine hargs.succ fun n hvalues => ?_
  rw [evaluate_eager_run n hname, SessionM.bind_run_ok hvalues]
  exact hrun _

theorem evaluates_assign {target : Symbol} {expr : Value}
    (hname : s.resolve? env name = some (some (.builtin identity (.special .assign))))
    (hmissing : target.isMissing = false) (hellipsis : target.isEllipsis = false)
    (h : Evaluates s t env expr value) (hlive : t.heap.contains env = true) :
    Evaluates s (t.bound env target ⟨value, false⟩) env
      (.call ⟨id, .symbol name, [.untagged (.symbol target), .untagged expr]⟩) value := by
  have hbind : SessionM.bindIn env target value t =
      (.ok (), t.bound env target ⟨value, false⟩) := by
    rw [SessionM.bindIn_run, if_pos hlive]
  refine h.succ fun n hvalue => ?_
  rw [evaluate_assign_run n hname hmissing hellipsis, SessionM.bind_run_ok hvalue,
    SessionM.bind_run_ok hbind]
  rfl

theorem evaluates_block {statement : Value}
    (hname : s.resolve? env name = some (some (.builtin identity (.special .block))))
    (h : Evaluates s t env statement value) :
    Evaluates s t env (.call ⟨id, .symbol name, [.untagged statement]⟩) value :=
  h.succ fun n hvalue => (evaluate_block_run n hname).trans hvalue

end

/-! ## The setting of a loop -/

/-- What is the same in all iterations of a loop. -/
structure LoopSetting where
  env : EnvId
  var : Symbol
  accumulator : Symbol
  /-- What the names in function position are read as. -/
  op : Symbol → Option LoopOp
  names : List Symbol
  index : Array Float
  given : List (Symbol × DoubleVector)
  kernels : KernelTable

/-- In the session, an iteration in which the loop variable is `x` comes to what it is read as. -/
structure LoopSetting.Holds (l : LoopSetting) (s : Session) (x : Float) : Prop where
  live : s.heap.contains l.env = true
  base : s.heap.contains s.namespaces.baseEnv = true
  ops : ∀ name ∈ l.names, ∀ op, l.op name = some op → ∃ identity builtin,
    s.resolve? l.env name = some (some (.builtin identity builtin)) ∧ builtin.loopOp? = some op
  element : s.numbers? l.env l.var = some ⟨#[x], .empty⟩
  given : ∀ entry ∈ l.given, entry.1 ≠ l.var → entry.1 ≠ l.accumulator →
    s.numbers? l.env entry.1 = some entry.2

theorem mem_of_lookup {given : List (Symbol × DoubleVector)} {name : Symbol} {v : DoubleVector}
    (h : given.lookup name = some v) : (name, v) ∈ given := by
  obtain ⟨before, after, rfl, -⟩ := List.lookup_eq_some_iff.1 h
  simp

section

variable {l : LoopSetting} {s : Session} {x : Float} {i : Nat}

mutual

/-- An increment evaluates to the numbers that its lane has in the iteration. -/
theorem Lowers.evaluates (hs : l.Holds s x) (hown : l.kernels.IsOwn) (hi : l.index[i]? = some x)
    {expr : Value} {e : LoopExpr} {lane : Lane} (h : Lowers l.op l.var l.accumulator expr e)
    (hnames : expr.calledNames ⊆ l.names) (hmissing : expr.isMissingArg = false)
    (hellipsis : expr.isEllipsis = false)
    (hlane : e.evaluate l.index l.given l.kernels = .ok lane) (m : Nat) :
    ∃ v identity m', v.Shows lane i ∧
      Evaluates (s.counting m) (s.counting m') l.env expr (DoubleVector.toValue v identity) := by
  cases h with
  | index =>
    cases hlane
    have helement : (s.counting m).numbers? l.env l.var = some ⟨#[x], .empty⟩ := hs.element
    obtain ⟨identity, heval⟩ := evaluates_symbol helement hmissing hellipsis
    refine ⟨_, identity, m, ⟨?_, rfl⟩, heval⟩
    simp [Lane.ofVector, Lane.inIteration, hi, AttributeList.empty, AttributeList.extents?,
      AttributeList.get?]
  | constant =>
    cases hlane
    exact ⟨⟨#[_], .empty⟩, _, m, ⟨rfl, rfl⟩, evaluates_vector _ _ _⟩
  | @invariant name hvar haccumulator =>
    rw [LoopExpr.evaluate] at hlane
    split at hlane
    · rename_i v hv
      cases hlane
      have hgiven : (s.counting m).numbers? l.env name = some v :=
        hs.given (name, v) (mem_of_lookup hv) hvar haccumulator
      obtain ⟨-, hclass⟩ := Session.eq_of_numbers? hgiven
      obtain ⟨identity, heval⟩ := evaluates_symbol hgiven hmissing hellipsis
      exact ⟨v, identity, m, ⟨rfl, hclass⟩, heval⟩
    · cases hlane
  -- the builtin that the name stands for does in one iteration what the operation does on lanes
  | @apply id name args operation operands e hplain hop hargs he =>
    rw [Value.calledNames_call] at hnames
    obtain ⟨identity, builtin, hresolve, hbuiltin⟩ := hs.ops name (hnames List.mem_cons_self) _ hop
    obtain ⟨hlt, -⟩ := Array.getElem?_eq_some_iff.1 hi
    obtain ⟨builtin, lanes, rfl, hlanes, hcarries⟩ :=
      Builtin.carries_of_expr? hown hbuiltin he hlane hlt
    obtain ⟨vs, m', hshow, hvalues⟩ := LowersAll.evaluates hs hown hi hargs
      (List.subset_of_cons_subset hnames) hplain hlanes m
    obtain ⟨v, hv, hrun⟩ := hcarries vs hshow
    have hname := (Session.resolve?_counting s m l.env name).trans hresolve
    exact ⟨v, ⟨m'⟩, m' + 1, hv, evaluates_eager hname hvalues fun ev => hrun ev _ _ hs.base⟩
termination_by sizeOf expr

theorem LowersAll.evaluates (hs : l.Holds s x) (hown : l.kernels.IsOwn)
    (hi : l.index[i]? = some x) {args : ArgList} {operands : List LoopExpr} {lanes : List Lane}
    (h : LowersAll l.op l.var l.accumulator args operands)
    (hnames : Value.argsCalledNames args ⊆ l.names) (hplain : args.all Arg.isPlain = true)
    (hlanes : LoopExpr.evaluateAll l.index l.given l.kernels operands = .ok lanes) (m : Nat) :
    ∃ vs m', SharedVectors.Show vs lanes i ∧
      EvaluatesArgs (s.counting m) (s.counting m') l.env args (SharedVectors.args vs) := by
  cases h with
  | nil =>
    cases hlanes
    exact ⟨[], m, trivial, evaluatesArgs_nil _ _⟩
  | @cons tag value rest e operands hvalue hrest =>
    rw [Value.argsCalledNames] at hnames
    obtain ⟨hvalueNames, hrestNames⟩ := List.append_subset.1 hnames
    obtain ⟨hfirst, hothers⟩ : Arg.isPlain ⟨tag, value⟩ = true ∧ rest.all Arg.isPlain = true := by
      simpa using hplain
    obtain ⟨-, hmissing, hellipsis⟩ := Arg.isPlain_iff.1 hfirst
    obtain ⟨lane, others, hlane, hrestLanes, rfl⟩ := LoopExpr.evaluateAll_cons hlanes
    obtain ⟨v, identity, m₁, hv, heval⟩ :=
      Lowers.evaluates hs hown hi hvalue hvalueNames hmissing hellipsis hlane m
    obtain ⟨vs, m₂, hvs, hevals⟩ :=
      LowersAll.evaluates hs hown hi hrest hrestNames hothers hrestLanes m₁
    exact ⟨(v, identity) :: vs, m₂, ⟨hv, hvs⟩, evaluatesArgs_cons hfirst heval hevals⟩
termination_by sizeOf args

end

/-- What the loop adds to the accumulator in iteration `i`, if `e` is what it adds. -/
def LoopSetting.Adds (l : LoopSetting) (e : LoopExpr) (i : Nat) (y : Float) : Prop :=
  ∃ lane increments, e.evaluate l.index l.given l.kernels = .ok lane ∧
    lane.increments l.index.size = .ok increments ∧ increments[i]? = some y

variable {e : LoopExpr} {y start : Float} {attributes : Attributes}

/-- An iteration adds its increment to the accumulator. -/
theorem Accumulates.evaluates (hs : l.Holds s x) (hown : l.kernels.IsOwn)
    (hi : l.index[i]? = some x) {increment statement : Value}
    (h : Accumulates l.op l.var l.accumulator increment statement)
    (hlowers : Lowers l.op l.var l.accumulator increment e)
    (hnames : statement.calledNames ⊆ l.names) (hadds : l.Adds e i y)
    (hstart : s.numbers? l.env l.accumulator = some ⟨#[start], attributes⟩) (m : Nat) :
    ∃ identity m', let total := DoubleVector.toValue ⟨#[start + y], attributes⟩ identity
      Evaluates (s.counting m) ((s.counting m').bound l.env l.accumulator ⟨total, false⟩)
        l.env statement total := by
  obtain ⟨lane, increments, hlane, hincrements, hy⟩ := hadds
  obtain ⟨hlt, -⟩ := Array.getElem?_eq_some_iff.1 hi
  have hfits := LoopExpr.fits_of_evaluate (Nat.zero_lt_of_lt hlt) hlane
  obtain ⟨hplain, -, hsingle⟩ := Lane.increments_inIteration hfits hincrements
  obtain ⟨y', hy', hvalues⟩ := hsingle i hlt
  obtain rfl : y = y' := Option.some.inj (hy.symm.trans hy')
  cases h with
  | @intro id₁ id₂ assign plus args operands hassign hplus hargs hoperands _ hmissing hellipsis =>
    rw [Value.calledNames_call, argsCalledNames_of_accumulation hargs hoperands] at hnames
    obtain ⟨rfl, -⟩ := eq_of_plainValues? hargs
    obtain ⟨rfl, hsupplied⟩ := eq_of_plainValues? hoperands
    obtain ⟨hincrementMissing, hincrementEllipsis⟩ := hsupplied increment (by simp)
    obtain ⟨a₁, b₁, hassign, hop₁⟩ := hs.ops assign (hnames (by simp)) _ hassign
    obtain ⟨a₂, b₂, hplus, hop₂⟩ := hs.ops plus (hnames (by simp)) _ hplus
    obtain rfl := Builtin.eq_of_loopOp?_assign hop₁
    obtain rfl := Builtin.eq_of_loopOp?_binary hop₂
    have hstart' : (s.counting m).numbers? l.env l.accumulator = some ⟨#[start], attributes⟩ :=
      hstart
    obtain ⟨a, hread⟩ := evaluates_symbol hstart' hmissing hellipsis
    have hincrementNames : increment.calledNames ⊆ l.names :=
      List.subset_of_cons_subset (List.subset_of_cons_subset hnames)
    obtain ⟨v, b, m₁, hv, hincrement⟩ := hlowers.evaluates hs hown hi hincrementNames
      hincrementMissing hincrementEllipsis hlane m
    -- a lane whose increments can be taken apart shows no attributes and one number an iteration
    obtain rfl : v = ⟨#[y], .empty⟩ := by
      obtain ⟨values, attributes⟩ := v
      have hvalue : values = #[y] := (congrArg Lane.values hv.lane).trans hvalues
      have hnone : attributes = .empty := hv.attributes_eq hplain
      rw [hvalue, hnone]
    have hleft : (Arg.untagged (Value.symbol l.accumulator)).isPlain = true :=
      Arg.isPlain_untagged hmissing hellipsis
    have hright : (Arg.untagged increment).isPlain = true :=
      Arg.isPlain_untagged hincrementMissing hincrementEllipsis
    have hargs := evaluatesArgs_cons hleft hread
      (evaluatesArgs_cons hright hincrement (evaluatesArgs_nil _ _))
    -- the increment carries no attributes, so the sum has those of the accumulator
    have hsum : Builtin.arithmetic .add
        [.untagged (DoubleVector.toValue ⟨#[start], attributes⟩ a),
          .untagged (DoubleVector.toValue ⟨#[y], .empty⟩ b)] =
          .ok (DoubleVector.answer ⟨#[start + y], attributes⟩) :=
      Builtin.arithmetic_toValue .add rfl
    have hunclassed : ∀ arg ∈ ([.untagged (DoubleVector.toValue ⟨#[start], attributes⟩ a),
        .untagged (DoubleVector.toValue ⟨#[y], .empty⟩ b)] : ArgList),
        arg.value.hasClassAttribute = false :=
      List.forall_mem_cons.2 ⟨(Session.eq_of_numbers? hstart).2, List.forall_mem_singleton.2 rfl⟩
    have hplus' := (Session.resolve?_counting s m l.env plus).trans hplus
    have hassign' := (Session.resolve?_counting s m l.env assign).trans hassign
    refine ⟨⟨m₁⟩, m₁ + 1, evaluates_assign hassign' hmissing hellipsis ?_ hs.live⟩
    exact evaluates_eager hplus' hargs fun ev => ev.runArithmetic_run hs.base hunclassed hsum

/-- The body of a loop adds the increment of the iteration to the accumulator. -/
theorem LowersBody.evaluates (hs : l.Holds s x) (hown : l.kernels.IsOwn)
    (hi : l.index[i]? = some x) {body : Value} (h : LowersBody l.op l.var l.accumulator body e)
    (hnames : body.calledNames ⊆ l.names) (hadds : l.Adds e i y)
    (hstart : s.numbers? l.env l.accumulator = some ⟨#[start], attributes⟩) (m : Nat) :
    ∃ identity m', let total := DoubleVector.toValue ⟨#[start + y], attributes⟩ identity
      Evaluates (s.counting m) ((s.counting m').bound l.env l.accumulator ⟨total, false⟩)
        l.env body total := by
  cases h with
  | statement hstatement hincrement =>
    exact hstatement.evaluates hs hown hi hincrement hnames hadds hstart m
  | @block id args increment statement e hblock hargs hstatement hincrement =>
    rw [Value.calledNames_call, argsCalledNames_of_plainValues hargs] at hnames
    obtain ⟨rfl, -⟩ := eq_of_plainValues? hargs
    obtain ⟨b, builtin, hname, hop⟩ := hs.ops ⟨"\x7b"⟩ (hnames (by simp)) _ hblock
    obtain rfl := Builtin.eq_of_loopOp?_block hop
    have hstatementNames : statement.calledNames ⊆ l.names := by
      simpa using List.subset_of_cons_subset hnames
    obtain ⟨a, m', heval⟩ :=
      hstatement.evaluates hs hown hi hincrement hstatementNames hadds hstart m
    exact ⟨a, m', evaluates_block ((Session.resolve?_counting s m l.env _).trans hname) heval⟩

end

end CallByNeed
