import CallByNeed.Proofs.Dangling.Collection
import CallByNeed.Proofs.Resolution
import CallByNeed.Proofs.Termination.Wary

/-!
# Which evaluations end

An evaluation that does not hand on a task which `waryEvaluator` refuses comes to
an end, and to the same one.  The refusals are needed: an operator that is the
first method of its own operands is applied to them again and again, and no
invocation is entered on the way that could be counted.
-/

namespace CallByNeed

open Session

namespace Evaluator

variable {s t u : Session}

/-! ## Operators that are their own methods -/

section

variable (ev : Evaluator) {env : EnvId} {args promised : ArgList} {table : Option EnvId}

theorem firstMethod_run_visible {name : Symbol} {function : Value}
    (h : s.resolve? env name = some (some function)) (rest : List Symbol) :
    ev.firstMethod env table (name :: rest) s = (.ok (some function), s) := by
  have hmethod : ev.method? name env table s = (.ok (some function), s) :=
    SessionM.bind_run_ok (ev.function?_run_quiet h) _
  exact SessionM.bind_run_ok hmethod _

/-- The arguments are promises of these values. -/
def Promised (s : Session) (args promised : ArgList) : Prop :=
  List.Forall₂ (fun arg promise => promise.value.isMissingArg = false ∧
    s.known? promise.value = some arg.value) args promised

/-- Operands are promised as the values that they are. -/
theorem promiseArgs_run (args : ArgList) (s : Session) :
    ∃ promised t,
      (args.mapM fun arg => do
        return Arg.new arg.tag (← SessionM.newKept arg.value arg.value) : SessionM ArgList) s =
        (.ok promised, t) ∧
      t.heap = s.heap ∧ t.namespaces = s.namespaces ∧ s.KeepsPromises t ∧
        Promised t args promised := by
  induction args generalizing s with
  | nil => exact ⟨[], s, rfl, rfl, rfl, .of_promises rfl, .nil⟩
  | cons arg rest ih =>
    let added := s.promises.add ⟨arg.value, .kept arg.value⟩
    obtain ⟨promised, t, hrun, hheap, hnamespaces, hkeeps, hpromised⟩ :=
      ih { s with promises := added.2 }
    have hknown : ({ s with promises := added.2 } : Session).known? (.promise added.1) =
        some arg.value :=
      Session.known?_promise_eq_some_iff.2 ⟨_, PromiseStore.get?_add_self _ _⟩
    refine ⟨Arg.new arg.tag (.promise added.1) :: promised, t, ?_, hheap, hnamespaces,
      (KeepsPromises.of_move (.promise _ rfl)).trans hkeeps,
      .cons ⟨rfl, known?_of_keepsPromises hkeeps hknown⟩ hpromised⟩
    have hnew : (do return Arg.new arg.tag (← SessionM.newKept arg.value arg.value) :
        SessionM (Arg Value)) s =
        (.ok (Arg.new arg.tag (.promise added.1)), { s with promises := added.2 }) := rfl
    rw [List.mapM_cons, SessionM.bind_run_ok hnew, SessionM.bind_run_ok hrun]
    rfl

theorem forceArgs_run_promised (h : Promised s args promised) :
    ∃ values, promised.mapM ev.forceArg s = (.ok values, s) ∧
      values.map (·.value) = args.map (·.value) := by
  obtain ⟨values, hrun, hvalues⟩ := ev.forceArgs_run_known (R := fun arg operand =>
    arg.value = operand.value) (h.imp fun arg _ h => ⟨h.1, arg.value, h.2, rfl⟩)
  refine ⟨values, hrun, Eq.symm ?_⟩
  rwa [← List.forall₂_eq_eq_eq, List.forall₂_map_left_iff, List.forall₂_map_right_iff]

theorem operatorMethodNames_congr {op : String} {args' : ArgList}
    (h : args.map (·.value) = args'.map (·.value)) :
    operatorMethodNames op args = operatorMethodNames op args' := by
  have hvalues (args : ArgList) : operatorMethodNames op args =
      (args.map (·.value)).flatMap fun value =>
        if value.hasClassAttribute then value.classes.flatMap fun className =>
          [methodName op className, methodName "Ops" className] else [] := by
    rw [List.flatMap_map]
    rfl
  rw [hvalues, hvalues, h]

/-- What an operator does if the first of its method names is that of a visible function. -/
theorem dispatchOperator_run_visible {op : String} {name : Symbol} {rest : List Symbol}
    {function : Value} (hbase : s.heap.contains s.namespaces.baseEnv = true)
    (hnames : operatorMethodNames op args = name :: rest)
    (hvisible : s.resolve? env name = some (some function)) :
    ∃ call promised extra t,
      ev.dispatchOperator op env args s =
        (some <$> ev (.apply function call promised env extra)) t ∧
      t.heap = s.heap ∧ t.namespaces = s.namespaces ∧ s.KeepsPromises t ∧
        Promised t args promised := by
  obtain ⟨table, htable⟩ := methodsTable_run hbase
  obtain ⟨promised, t, hrun, hheap, hnamespaces, hkeeps, hpromised⟩ := promiseArgs_run args s
  refine ⟨⟨⟨t.identities⟩, .symbol ⟨op⟩, args⟩, promised,
    [(⟨".Generic"⟩, .vector ⟨⟨t.identities + 1⟩, .character #[op], .empty⟩)],
    { t with identities := t.identities + 1 + 1 }, ?_, hheap, hnamespaces,
    hkeeps.trans (.of_promises rfl), hpromised⟩
  rw [dispatchOperator, SessionM.get_bind_run, SessionM.bind_run_ok htable, hnames,
    SessionM.bind_run_ok (ev.firstMethod_run_visible hvisible rest)]
  dsimp only
  rw [SessionM.bind_run_ok hrun]
  rfl

end

theorem runArithmetic_exhausted_of_method {ev : Evaluator} {op : BinaryOp} {args : ArgList}
    {env : EnvId} {x : SessionM Value}
    (hdispatch : ev.dispatchOperator op.spelling env args s = (some <$> x) t)
    (hx : (x t).1 = .error .exhausted) :
    (ev.runArithmetic op args env s).1 = .error .exhausted := by
  have hmethod : (ev.dispatchOperator op.spelling env args s).1 = .error .exhausted := by
    rw [hdispatch, ← bind_pure_comp]
    exact SessionM.bind_exhausted hx _
  exact SessionM.bind_exhausted hmethod _

/-- An operator that is the first method of its own operands is applied to them again and again. -/
theorem runArithmetic_exhausted (fuel : Nat) {op : BinaryOp} {args : ArgList} {env : EnvId}
    {name : Symbol} {rest : List Symbol} {identity : Identity}
    (hbase : s.heap.contains s.namespaces.baseEnv = true)
    (hnames : operatorMethodNames op.spelling args = name :: rest)
    (hown : s.resolve? env name = some (some (.builtin identity (.eager (.arithmetic op))))) :
    ((evaluator fuel).runArithmetic op args env s).1 = .error .exhausted := by
  induction fuel generalizing s args with
  | zero =>
    obtain ⟨call, promised, extra, t, hdispatch, -⟩ :=
      (evaluator 0).dispatchOperator_run_visible hbase hnames hown
    exact runArithmetic_exhausted_of_method hdispatch rfl
  | succ fuel ih =>
    obtain ⟨call, promised, extra, t, hdispatch, hheap, hnamespaces, hkeeps, hpromised⟩ :=
      (evaluator (fuel + 1)).dispatchOperator_run_visible hbase hnames hown
    -- the promised operands have the same classes, and the method is visible still
    obtain ⟨values, hforce, hvalues⟩ := (evaluator fuel).forceArgs_run_promised hpromised
    have hagain : ((evaluator fuel).runArithmetic op values env t).1 = .error .exhausted :=
      ih (by rw [hheap, hnamespaces]; exact hbase)
        ((operatorMethodNames_congr hvalues).trans hnames)
        (resolve?_of_keepsPromises hheap hkeeps hown)
    have happly : evaluator (fuel + 1)
        (.apply (.builtin identity (.eager (.arithmetic op))) call promised env extra) t =
          (evaluator fuel).runArithmetic op values env t :=
      SessionM.bind_run_ok hforce _
    exact runArithmetic_exhausted_of_method hdispatch (by rw [happly]; exact hagain)

/-! ## Evaluations that never end -/

/-- What ends with some fuel ends in the same way with more. -/
theorem run_of_more {α : Type} {x y : (fuel : Nat) → SessionM α}
    (hxy : ∀ more fuel, Contract.untilExhausted.Agree (y (fuel + more)) (x fuel)) {least : Nat}
    (h : (x least s).1 ≠ .error .exhausted) {fuel : Nat} (hfuel : least ≤ fuel) :
    y fuel s = x least s := by
  obtain ⟨more, rfl⟩ := Nat.exists_eq_add_of_le hfuel
  exact ((hxy more least).until s).resolve_right h

/-- What comes to a value with some fuel comes to it with any, unless the fuel runs out. -/
theorem run_or_exhausted {α : Type} (x : (fuel : Nat) → SessionM α)
    (hx : ∀ more fuel, Contract.untilExhausted.Agree (x (fuel + more)) (x fuel)) {least : Nat}
    {a : α} (h : x least s = (.ok a, t)) (fuel : Nat) :
    x fuel s = (.ok a, t) ∨ (x fuel s).1 = .error .exhausted := by
  obtain hle | hle := Nat.le_total fuel least
  · rw [or_iff_not_imp_right]
    exact fun hends => (run_of_more hx hends hle).symm.trans h
  · exact .inl ((run_of_more hx (by rw [h]; nofun) hle).trans h)

/-- The evaluation of a call never ends if what is called is an operator that is the first method of
    the arguments. -/
theorem evaluate_exhausted (hs : s.Safe) {call : Call} (hcall : s.Admits (.call call)) {env : EnvId}
    (henv : s.heap.contains env = true) {least : Nat} {op : BinaryOp} {identity own : Identity}
    {values : ArgList} {name : Symbol} {rest : List Symbol}
    (hfunction : (evaluator least).functionOf call env s =
      (.ok (.builtin identity (.eager (.arithmetic op))), t))
    (hvalues : (evaluator least).argValues call.args env t = (.ok values, u))
    (hnames : operatorMethodNames op.spelling values = name :: rest)
    (hown : u.resolve? env name = some (some (.builtin own (.eager (.arithmetic op)))))
    (fuel : Nat) : ((evaluator fuel).evaluate (.call call) env s).1 = .error .exhausted := by
  have hsafe := isSafe_evaluator least
  have ht : s.Onward t := by
    have honward := (safe_functionOf hsafe hs henv hcall).onward
    rwa [hfunction] at honward
  have hu : t.Onward u := by
    have hargs := ht.args (admits_call.1 hcall).2
    have honward := (safe_argValues hsafe ht.safe (ht.live henv) hargs).onward
    rwa [hvalues] at honward
  cases fuel with
  | zero => rfl
  | succ fuel =>
    change ((evaluator fuel).evaluateCall call env s).1 = _
    have hfunction := run_or_exhausted (fun n => (evaluator n).functionOf call env)
      (fun more fuel => Contract.agree_functionOf (agreeAll_evaluator more fuel) call env)
      hfunction fuel
    have hvalues := run_or_exhausted (fun n => (evaluator n).argValues call.args env)
      (fun more fuel => Contract.agree_argValues (agreeAll_evaluator more fuel) call.args env)
      hvalues fuel
    -- with little fuel the function or an argument may be where it runs out
    obtain hfunction | hfunction := hfunction
    · rw [evaluateCall, SessionM.bind_run_ok hfunction]
      obtain hvalues | hvalues := hvalues
      · dsimp only
        rw [SessionM.bind_run_ok hvalues]
        exact runArithmetic_exhausted fuel hu.safe.registryBase hnames hown
      · exact SessionM.bind_exhausted hvalues _
    · exact SessionM.bind_exhausted hfunction _

end Evaluator

namespace Session

variable {s t u : Session} {expr : Value} {env : EnvId}

/-! ## Founded sessions last -/

namespace Founded

variable (hs : s.Founded)
include hs

theorem evaluate (hexpr : s.Admits expr) (henv : s.heap.contains env = true) (fuel : Nat) :
    ((evaluator fuel).evaluate expr env s).2.Founded := by
  have hsafe := Evaluator.safe_evaluate (isSafe_evaluator fuel) hs.safe henv hexpr
  have hagree := Contract.steady_loopBlind.closed.agree_evaluator fuel
  exact hs.onward hsafe.onward (hagree (.evaluate expr env) s trivial).rel

theorem collect (extra : List Value) : (SessionM.collect extra s).2.Founded := by
  cases hcollect : s.heap.collect s.promises s.rootEnvs (extra ++ s.rootValues) with
  | none =>
    rw [SessionM.collect_run_refused hcollect]
    exact hs
  | some result =>
    obtain ⟨freed, heap⟩ := result
    rw [SessionM.collect_run hcollect]
    obtain ⟨layer, hlayer⟩ := hs.layered
    refine ⟨(hs.safe.collected hcollect).1, ⟨layer, fun hf hparent => ?_⟩, hs.outward.own,
      hs.outward.inside⟩
    exact hlayer ((hs.safe.intact.wellFormed.frame?_collect hcollect).1 hf).1 hparent

theorem evalIn (hexpr : s.Admits expr) (henv : s.heap.contains env = true) (fuel : Nat) :
    ((evaluator fuel).evalIn expr env s).2.Founded := by
  have htop : (SessionM.atTopLevel ((evaluator fuel).evaluate expr env) s).2.Founded := by
    have hevaluate := hs.evaluate hexpr henv fuel
    rcases hrun : (evaluator fuel).evaluate expr env s with ⟨(e | ⟨target, v⟩ | _) | v, t⟩ <;>
      rw [hrun] at hevaluate <;> simpa only [SessionM.atTopLevel, hrun] using hevaluate
  rw [Evaluator.evalIn]
  rcases hrun : SessionM.atTopLevel ((evaluator fuel).evaluate expr env) s with ⟨e | v, t⟩ <;>
    rw [hrun] at htop
  · rw [SessionM.bind_run_error hrun]
    exact htop
  · have hdue : (SessionM.collectIfDue v t).2.Founded := by
      rw [collectIfDue_run]
      split
      · exact htop.collect [v]
      · exact htop
    rw [SessionM.bind_run_ok hrun, SessionM.bind_run]
    rcases hdone : SessionM.collectIfDue v t with ⟨e | _, u⟩ <;> rw [hdone] at hdue <;> exact hdue

end Founded

/-! ## Evaluations that end -/

/-- From some fuel on, all of them come to the same end, which is not to be out of fuel. -/
def Terminates (s : Session) (x : (fuel : Nat) → SessionM Value) : Prop :=
  ∃ least outcome, outcome.1 ≠ .error .exhausted ∧ ∀ fuel, least ≤ fuel → x fuel s = outcome

/-- However much fuel there is, it runs out. -/
def Endless (s : Session) (x : (fuel : Nat) → SessionM Value) : Prop :=
  ∀ fuel, (x fuel s).1 = .error .exhausted

theorem EndsAt.terminates {x : Nat → SessionM Value} {P : Session → Value → Prop}
    (h : EndsAt s x P) : s.Terminates x := by
  obtain ⟨outcome, t, ⟨least, hrun⟩, hended⟩ := h
  exact ⟨least, (outcome, t), fun he => (hended.raises _ he).2 rfl, hrun⟩

/-- Evaluations end, except those that come upon a task which could be handed on for ever.  In a
    founded session, evaluating an expression whose environments are there comes to an end if each
    such task is refused as one more invocation would be: an operator or a special form that is the
    method of an operator, and any task while a promise is evaluated that was made in the same
    invocation.  So do recursions of all other kinds, for which nothing is refused.  The plain
    evaluators come to that same end unless such a task is met, which shows if it is refused by
    running out of fuel; in any case, they either end, all alike from some fuel on, or never.
    Sessions remain founded, also at top level, whatever the outcome.

    If what is called is an operator, and the first method of its operands is the operator itself,
    the evaluation never ends, although there is a limit to the depth of invocations. -/
theorem Founded.evaluation_ends (hs : s.Founded) (hexpr : s.Admits expr)
    (henv : s.heap.contains env = true) :
    let plain := fun fuel => (evaluator fuel).evaluate expr env
    let wary := fun refusal fuel =>
      waryEvaluator refusal fuel s.promises.cells.size (.evaluate expr env)
    s.Terminates (wary Evaluator.cutOff) ∧
    ((∃ least, ∀ fuel, least ≤ fuel → plain fuel s = wary Evaluator.cutOff fuel s) ∨
      s.Endless (wary (throw .exhausted))) ∧
    (s.Terminates plain ∨ s.Endless plain) ∧
    (∀ fuel, (plain fuel s).2.Founded ∧ ((evaluator fuel).evalIn expr env s).2.Founded) ∧
    ∀ call least op identity own values name rest t u, expr = .call call →
      (evaluator least).functionOf call env s =
        (.ok (.builtin identity (.eager (.arithmetic op))), t) →
      (evaluator least).argValues call.args env t = (.ok values, u) →
      Evaluator.operatorMethodNames op.spelling values = name :: rest →
      u.resolve? env name = some (some (.builtin own (.eager (.arithmetic op)))) →
      s.Endless plain := by
  intro plain wary
  let task : Task := .evaluate expr env
  let bound := s.promises.cells.size
  let strict := wary (throw .exhausted)
  have hmore (more fuel : Nat) : Contract.untilExhausted.Agree (plain (fuel + more)) (plain fuel) :=
    Evaluator.agreeAll_evaluator more fuel task
  have hplain (more fuel : Nat) :
      Contract.untilExhausted.Agree (plain (fuel + more)) (strict fuel) :=
    Evaluator.agreeAll_evaluator_wary more fuel bound task
  have hwary (more fuel : Nat) :
      Contract.untilExhausted.Agree (wary Evaluator.cutOff (fuel + more)) (strict fuel) :=
    Evaluator.agreeAll_waryEvaluator Evaluator.cutOff more fuel bound task
  refine ⟨?_, ?_, ?_, fun fuel => ⟨hs.evaluate hexpr henv fuel, hs.evalIn hexpr henv fuel⟩, ?_⟩
  · -- at first all the promises are old ones
    let b : Budget := ⟨s.depth, s.options.maxCallDepth, bound, s.promises.idleBelow bound,
      s.rank env, 2 * sizeOf expr⟩
    have hmeets : s.Meets b := ⟨hs, rfl, rfl, Nat.le_refl _, Nat.le_refl _⟩
    have hends := Evaluator.ends_waryEvaluator b hmeets (show s.AdmitsTask task from ⟨hexpr, henv⟩)
      (Nat.le_refl _) (Nat.le_refl _)
    exact hends.terminates
  · -- if nothing is refused, both evaluators do what the strict one does
    rw [or_iff_not_imp_right]
    intro hmeets
    obtain ⟨least, hends⟩ := not_forall.1 hmeets
    exact ⟨least, fun fuel hfuel => (Evaluator.run_of_more hplain hends hfuel).trans
      (Evaluator.run_of_more hwary hends hfuel).symm⟩
  · rw [or_iff_not_imp_right]
    intro hmeets
    obtain ⟨least, hends⟩ := not_forall.1 hmeets
    exact ⟨least, plain least s, hends, fun fuel hfuel => Evaluator.run_of_more hmore hends hfuel⟩
  · rintro call least op identity own values name rest t u rfl hfunction hvalues hnames hown fuel
    exact Evaluator.evaluate_exhausted hs.safe hexpr henv hfunction hvalues hnames hown fuel

/-- The global environment binds the name of the method of `+` for the class foo to `+` itself. -/
def selfAdding : Session :=
  let s := Session.initial {} .empty
  let plus : Value := .call
    ⟨⟨0⟩, .symbol ⟨"<-"⟩, [.untagged (.symbol ⟨"+.foo"⟩), .untagged (.symbol ⟨"+"⟩)]⟩
  ((evaluator 4).evalIn plus s.globalEnv s).2

/-- A vector of class foo plus one. -/
def fooPlusOne : Call :=
  let one : Value := .vector ⟨⟨0⟩, .double #[1], .empty⟩
  let foo : Value := .vector ⟨⟨1⟩, .character #["foo"], .empty⟩
  let structured : Value :=
    .call ⟨⟨2⟩, .symbol ⟨"structure"⟩, [.untagged one, .tagged ⟨"class"⟩ foo]⟩
  ⟨⟨3⟩, .symbol ⟨"+"⟩, [.untagged structured, .untagged one]⟩

theorem founded_selfAdding : selfAdding.Founded := by
  have hs := Founded.initial {} .empty
  refine hs.evalIn ?_ hs.safe.global 4
  simp [admits_call, Arg.untagged]

theorem admits_fooPlusOne (s : Session) : s.Admits (.call fooPlusOne) := by
  simp [fooPlusOne, admits_call, admits_vector, Arg.untagged, Arg.tagged, Arg.new]

/-- Whether an evaluator calls `+`, and the first method for the operands is `+` itself. -/
def Founded.addsWithItself (ev : Evaluator) (call : Call) (env : EnvId) (s : Session) : Bool :=
  match ev.functionOf call env s with
  | (.ok (.builtin _ (.eager (.arithmetic .add))), t) =>
    match ev.argValues call.args env t with
    | (.ok values, u) =>
      match Evaluator.operatorMethodNames BinaryOp.add.spelling values with
      | name :: _ =>
        match u.resolve? env name with
        | some (some (.builtin _ (.eager (.arithmetic .add)))) => true
        | _ => false
      | _ => false
    | _ => false
  | _ => false

/-- Adding to a vector of class foo ends in that session if the operator is refused as a method of
    itself, and otherwise never. -/
theorem Founded.evaluation_ends_selfAdding :
    let s := selfAdding
    let expr := Value.call fooPlusOne
    s.Founded ∧ s.Admits expr ∧ s.heap.contains s.globalEnv = true ∧
      (s.Terminates fun fuel => waryEvaluator Evaluator.cutOff fuel s.promises.cells.size
        (.evaluate expr s.globalEnv)) ∧
      s.Endless fun fuel => (evaluator fuel).evaluate expr s.globalEnv := by
  intro s expr
  have hs := founded_selfAdding
  obtain ⟨hterminates, -, -, -, hendless⟩ :=
    hs.evaluation_ends (admits_fooPlusOne s) hs.safe.global
  refine ⟨hs, admits_fooPlusOne s, hs.safe.global, hterminates, ?_⟩
  have hown : addsWithItself (evaluator 4) fooPlusOne s.globalEnv s = true := by
    decide +kernel
  unfold addsWithItself at hown
  split at hown
  case h_2 => cases hown
  case h_1 identity t hfunction =>
    split at hown
    case h_2 => cases hown
    case h_1 values u hvalues =>
      split at hown
      case h_2 => cases hown
      case h_1 name rest hnames =>
        split at hown
        case h_2 => cases hown
        case h_1 own hvisible =>
          exact hendless _ 4 .add identity own values name rest t u rfl hfunction hvalues hnames
            hvisible

end Session

end CallByNeed
