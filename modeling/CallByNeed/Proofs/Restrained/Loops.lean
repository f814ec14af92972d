import CallByNeed.Proofs.Restrained.Evaluation

/-!
# Restrained loops keep every discipline

Analyzing a loop and running it on whole vectors look functions and variables up,
and so they may evaluate; at the end the accumulator and the variable of the loop
are bound as far as the restraint lets them be.  With loops, the restrained
evaluator of any fuel keeps every discipline (`Discipline.isKeptBy_evaluator`).
-/

namespace CallByNeed

namespace Discipline

variable {R : Restraint} {D : Discipline R} {ev : Evaluator} {α β : Type}

/-! ## Analysis -/

/-- The analysis keeps the discipline, whatever guard it begins with. -/
def HoldsAnalysis (D : Discipline R) (x : AnalysisM α) : Prop :=
  ∀ guard, D.Holds (x guard : SessionM (Option (α × List GuardedName)))

theorem HoldsAnalysis.bind {x : AnalysisM α} {f : α → AnalysisM β} (hx : D.HoldsAnalysis x)
    (hf : ∀ a, D.HoldsAnalysis (f a)) : D.HoldsAnalysis (x >>= f) := by
  intro guard
  refine (hx guard).andThen fun found => ?_
  cases found with
  | none => exact holds_pure trivial
  | some result => exact hf result.1 result.2

theorem holdsAnalysis_pure (a : α) : D.HoldsAnalysis (pure a) := fun _ => holds_pure trivial

theorem holdsAnalysis_failure : D.HoldsAnalysis (failure : AnalysisM α) :=
  fun _ => holds_pure trivial

theorem holdsAnalysis_failure_bind (f : β → AnalysisM α) : D.HoldsAnalysis (failure >>= f) :=
  fun _ => holds_pure trivial

theorem HoldsAnalysis.ite {p : Prop} [Decidable p] {x y : AnalysisM α} (hx : D.HoldsAnalysis x)
    (hy : D.HoldsAnalysis y) : D.HoldsAnalysis (if p then x else y) := by
  split
  · exact hx
  · exact hy

theorem HoldsAnalysis.lift {x : SessionM α} (h : D.Holds x) :
    D.HoldsAnalysis (x : AnalysisM α) := by
  have hmap : D.Holds (some <$> x) := by
    rw [← bind_pure_comp]
    exact h.andThen fun _ => holds_pure trivial
  intro guard
  refine hmap.andThen fun found => ?_
  cases found with
  | none => exact holds_pure trivial
  | some a => exact holds_pure trivial

section

variable (h : D.IsKeptBy ev)
include h

theorem holds_loopOp (env : EnvId) (name : Symbol) : D.HoldsAnalysis (ev.loopOp env name) := by
  refine (HoldsAnalysis.lift (holds_function? h env name).attempt).bind fun found => ?_
  split
  · split
    · exact HoldsAnalysis.bind (fun _ => holds_pure trivial) fun _ => holdsAnalysis_pure _
    · exact holdsAnalysis_failure
  · exact holdsAnalysis_failure

end

mutual

theorem holds_loopExprOf (h : D.IsKeptBy ev) (env : EnvId) (var accumulator : Symbol)
    (expr : Value) : D.HoldsAnalysis (ev.loopExprOf env var accumulator expr) := by
  match expr with
  | .symbol name =>
    exact .ite (holdsAnalysis_pure _) (.ite holdsAnalysis_failure (holdsAnalysis_pure _))
  | .vector ⟨_, elements, attributes⟩ =>
    cases elements with
    | double xs =>
      unfold Evaluator.loopExprOf
      split
      · exact .ite (holdsAnalysis_pure _) holdsAnalysis_failure
      · exact holdsAnalysis_failure
    | _ => exact holdsAnalysis_failure
  | .call ⟨_, function, args⟩ =>
    cases function with
    | symbol name =>
      refine .ite ?_ holdsAnalysis_failure
      refine (holds_loopOp h env name).bind fun op =>
        (holds_loopExprsOf h env var accumulator args).bind fun operands guard => ?_
      cases op.expr? operands <;> exact holds_pure trivial
    | _ => exact holdsAnalysis_failure
  | .null | .list _ | .dots _ | .closure _ | .builtin _ _ | .promise _ | .environment _ =>
    exact holdsAnalysis_failure

theorem holds_loopExprsOf (h : D.IsKeptBy ev) (env : EnvId) (var accumulator : Symbol)
    (args : List (Arg Value)) : D.HoldsAnalysis (ev.loopExprsOf env var accumulator args) := by
  match args with
  | [] => exact holdsAnalysis_pure _
  | ⟨_, value⟩ :: rest =>
    exact (holds_loopExprOf h env var accumulator value).bind fun operand =>
      (holds_loopExprsOf h env var accumulator rest).bind fun operands => holdsAnalysis_pure _

end

/-! ## Fused runs -/

def HoldsFused (D : Discipline R) (x : FusedM α) : Prop := D.Holds x.run

theorem HoldsFused.bind {x : FusedM α} {f : α → FusedM β} (hx : D.HoldsFused x)
    (hf : ∀ a, D.HoldsFused (f a)) : D.HoldsFused (x >>= f) := by
  refine Holds.andThen hx fun outcome => ?_
  cases outcome with
  | error e => exact holds_pure trivial
  | ok a => exact hf a

theorem holdsFused_pure (a : α) : D.HoldsFused (pure a) := holds_pure trivial

theorem holdsFused_throw (e : Bailout) : D.HoldsFused (throw e : FusedM α) := holds_pure trivial

theorem HoldsFused.lift {x : SessionM α} (h : D.Holds x) : D.HoldsFused (x : FusedM α) := by
  change D.Holds (Except.ok <$> x)
  rw [← bind_pure_comp]
  exact h.andThen fun _ => holds_pure trivial

theorem holdsFused_get : D.HoldsFused ((get : SessionM Session) : FusedM Session) :=
  .lift fun _ hs => .of_same hs rfl rfl rfl fun _ _ => trivial

theorem holdsFused_ofBailout (e : Except Bailout α) : D.HoldsFused (FusedM.ofBailout e) :=
  holds_pure trivial

theorem HoldsFused.forM {f : α → FusedM PUnit} {items : List α} (h : ∀ a, D.HoldsFused (f a)) :
    D.HoldsFused (items.forM f) := by
  induction items with
  | nil => exact holdsFused_pure _
  | cons a rest ih => exact (h a).bind fun _ => ih

theorem HoldsFused.mapM {f : α → FusedM β} {items : List α} (h : ∀ a, D.HoldsFused (f a)) :
    D.HoldsFused (items.mapM f) := by
  induction items with
  | nil => exact holdsFused_pure _
  | cons a rest ih =>
    rw [List.mapM_cons]
    exact (h a).bind fun b => ih.bind fun bs => holdsFused_pure _

theorem holds_requireForced (env : EnvId) (name : Symbol) :
    D.HoldsFused (FusedM.requireForced env name) := by
  refine holdsFused_get.bind fun s => ?_
  split
  · split
    · exact holdsFused_throw _
    · exact holdsFused_pure _
  · exact holdsFused_pure _

theorem holds_bindResult (env : EnvId) (name : Symbol) (elements : Elements)
    (attributes : Attributes) : D.HoldsFused (R.bindResult env name elements attributes) := by
  refine (HoldsFused.lift (holds_newVector _ _)).bind fun value => ?_
  refine (HoldsFused.lift (holds_bindIn _ _ _).attempt).bind fun found => ?_
  cases found with
  | some _ => exact holdsFused_pure _
  | none => exact holdsFused_throw _

section

variable (h : D.IsKeptBy ev)
include h

theorem holds_statementOf (env : EnvId) (body : Value) :
    D.HoldsAnalysis (ev.statementOf env body) := by
  unfold Evaluator.statementOf
  split
  · split
    · exact (holds_loopOp h env _).bind fun op => .ite (holdsAnalysis_pure _) holdsAnalysis_failure
    · exact holdsAnalysis_failure
  · exact holdsAnalysis_pure _

theorem holds_accumulationOf (env : EnvId) (var : Symbol) (statement : Value) :
    D.HoldsAnalysis (ev.accumulationOf env var statement) := by
  unfold Evaluator.accumulationOf
  split
  · split
    · refine (holds_loopOp h env _).bind fun op => .ite ?_ (holdsAnalysis_failure_bind _)
      split
      · refine .ite (holdsAnalysis_failure_bind _) ?_
        split
        · split
          · refine .ite ?_ (holdsAnalysis_failure_bind _)
            exact (holds_loopOp h env _).bind fun op =>
              .ite (holdsAnalysis_pure _) (holdsAnalysis_failure_bind _)
          · exact holdsAnalysis_failure
        · exact holdsAnalysis_failure
      · exact holdsAnalysis_failure
    · exact holdsAnalysis_failure
  · exact holdsAnalysis_failure

theorem holds_analyze (env : EnvId) (var : Symbol) (body : Value) :
    D.Holds (ev.analyze env var body) := by
  have hbody : D.HoldsAnalysis (ev.accumulationBody env var body) := by
    refine (holds_statementOf h env body).bind fun statement => ?_
    refine (holds_accumulationOf h env var statement).bind fun (accumulator, increment) => ?_
    exact (holds_loopExprOf h env var accumulator increment).bind fun _ => holdsAnalysis_pure _
  refine Holds.andThen (hbody []) fun found => ?_
  split
  · exact holds_pure trivial
  · exact holds_get_bind fun _ _ => .ite (fun _ => holds_pure trivial) fun _ => holds_pure trivial

theorem holds_checkGuard (env : EnvId) (guarded : GuardedName) :
    D.HoldsFused (ev.checkGuard env guarded) := by
  refine (HoldsFused.lift (holds_function? h env guarded.name).attempt).bind fun found => ?_
  split
  · split
    · exact holdsFused_pure _
    · exact holdsFused_throw _
  · exact holdsFused_throw _

theorem holds_readAccumulator (env : EnvId) (name : Symbol) :
    D.HoldsFused (ev.readAccumulator env name) := by
  refine (HoldsFused.lift (holds_lookup h env name).attempt).bind fun found => ?_
  cases found with
  | none => exact holdsFused_throw _
  | some value =>
    dsimp only
    split
    · exact holdsFused_throw _
    · split
      · exact holdsFused_pure _
      · exact holdsFused_throw _

theorem holds_readInvariant (env : EnvId) (name : Symbol) :
    D.HoldsFused (ev.readInvariant env name) := by
  refine (HoldsFused.lift (holds_lookup h env name).attempt).bind fun found => ?_
  cases found with
  | none => exact holdsFused_throw _
  | some value =>
    dsimp only
    split
    · exact holdsFused_throw _
    · exact holdsFused_pure _

theorem holds_fusedRun (loop : Accumulation) (env : EnvId) (var : Symbol) (sequence : Value) :
    D.HoldsFused (R.fusedRun ev loop env var sequence) := by
  refine HoldsFused.bind (.forM (holds_requireForced env)) fun _ => ?_
  refine HoldsFused.bind (.forM (holds_checkGuard h env)) fun _ => ?_
  split
  · split
    · refine (holds_readAccumulator h env _).bind fun (start, attributes) => ?_
      refine HoldsFused.bind (.mapM (holds_readInvariant h env)) fun given => ?_
      refine holdsFused_get.bind fun s => ?_
      refine (holdsFused_ofBailout _).bind fun lane => (holdsFused_ofBailout _).bind
        fun increments => (holdsFused_ofBailout _).bind fun total => ?_
      exact (holds_bindResult _ _ _ _).bind fun _ => holds_bindResult _ _ _ _
    · exact holdsFused_throw _
  · exact holdsFused_throw _

/-! ## Running a loop -/

theorem holds_iterate (env : EnvId) (var : Symbol) (body : Value) (elements : List Elements) :
    D.Holds (R.iterate ev env var body elements) := by
  induction elements with
  | nil => exact holds_pure trivial
  | cons element rest ih =>
    exact (holds_newVector _ _).andThen fun value => (holds_bindIn _ _ _).andThen fun _ =>
      (holds_evaluate h _ _).andThen fun _ => ih

theorem holds_genericRun (env : EnvId) (var : Symbol) (sequence body : Value) :
    D.Holds (R.genericRun ev env var sequence body) := by
  unfold Restraint.genericRun
  split
  · exact holds_iterate h _ _ _ _
  · rename_i hsequence
    unfold Evaluator.genericRun
    split
    · exact (hsequence _ rfl).elim
    · exact .ite (fun _ => holds_pure trivial) fun _ => holds_fail _

omit h in
theorem holds_count (change : LoopStats → LoopStats) : D.Holds (SessionM.count change) :=
  fun _ hs => .of_same hs rfl rfl rfl fun _ _ => trivial

omit h in
theorem holds_setLoopStatus (call : Call) (status : LoopStatus) :
    D.Holds (SessionM.setLoopStatus call status) :=
  fun _ hs => .of_same hs rfl rfl rfl fun _ _ => trivial

omit h in
theorem holds_settle (call : Call) (status : LoopStatus) (change : LoopStats → LoopStats)
    (fused : Bool) : D.Holds (do
      SessionM.setLoopStatus call status
      SessionM.count change
      return fused) :=
  (holds_setLoopStatus _ _).andThen fun _ => (holds_count _).andThen fun _ => holds_pure trivial

theorem holds_ensureAnalyzed (call : Call) (env : EnvId) (var : Symbol) (body : Value) :
    D.Holds (ev.ensureAnalyzed call env var body) := by
  refine holds_get_bind fun s _ => .ite (fun _ => holds_pure trivial) fun _ => ?_
  refine (holds_count _).andThen fun _ => (holds_analyze h _ _ _).andThen fun found => ?_
  exact fun _ hs => .of_same hs rfl rfl rfl fun _ _ => trivial

theorem holds_tryFused (call : Call) (env : EnvId) (var : Symbol) (sequence : Value) :
    D.Holds (R.tryFused ev call env var sequence) := by
  refine holds_get_bind fun s _ => ?_
  split
  · exact holds_pure trivial
  · refine .ite (fun _ => holds_pure trivial) fun _ => ?_
    refine Holds.andThen (holds_fusedRun h _ _ _ _) fun outcome => ?_
    split <;> exact holds_settle _ _ _ _

theorem holds_runLoop (call : Call) (env : EnvId) (var : Symbol) (sequence body : Value) :
    D.Holds (R.runLoop ev call env var sequence body) := by
  refine holds_get_bind fun s _ => .ite (fun _ => ?_) fun _ => ?_
  · refine (holds_ensureAnalyzed h _ _ _ _).andThen fun _ => ?_
    refine (holds_tryFused h _ _ _ _).andThen fun fused =>
      .ite (fun _ => holds_pure trivial) fun _ => ?_
    exact (holds_count _).andThen fun _ => (holds_genericRun h _ _ _ _).andThen
      fun _ => holds_pure trivial
  · exact (holds_genericRun h _ _ _ _).andThen fun _ => holds_pure trivial

theorem isKeptBy_step : D.IsKeptBy (R.step ev)
  | .evaluate expr env, _ => holds_evaluateExpr h expr env
  | .apply function call _ env _, hargs => holds_applyValue h function call env hargs.1 hargs.2
  | .loop call env var sequence body, _ => holds_runLoop h call env var sequence body

end

/-- The restrained evaluator of any fuel keeps the discipline. -/
theorem isKeptBy_evaluator (fuel : Nat) : D.IsKeptBy (R.evaluator fuel) := by
  induction fuel with
  | zero => exact fun _ _ => holds_throw _
  | succ fuel ih => exact isKeptBy_step ih

/-! ## The top level -/

theorem Holds.atTopLevel {x : SessionM Value} (hx : D.Holds x) :
    D.Holds (SessionM.atTopLevel x) := by
  intro s hs
  obtain ⟨hrel, hwf, hstack, -⟩ := hx s hs
  rcases hrun : x s with ⟨(e | ⟨target, v⟩ | _) | v, t⟩ <;> rw [hrun] at hrel hwf hstack
  all_goals
    exact .of_rel (by simp only [SessionM.atTopLevel, hrun]; rfl) hrel hwf hstack fun _ _ => trivial

theorem holds_evalIn (h : D.IsKeptBy ev) (expr : Value) (env : EnvId) :
    D.Holds (ev.evalIn expr env) := by
  have hcollect (value : Value) : D.Holds (SessionM.collectIfDue value) :=
    holds_get_bind fun s _ => .ite
      (fun _ => (holds_collect [value]).andThen fun _ => holds_pure trivial)
      fun _ => holds_pure trivial
  exact (holds_evaluate h expr env).atTopLevel.andThen fun value =>
    (hcollect value).andThen fun _ => holds_pure trivial

end Discipline

/-! ## What the plain evaluator does -/

namespace Restraint

open Contract

variable (R : Restraint) {fuel : Nat} {s : Session}

theorem agree_atTopLevel {x y : SessionM Value} (h : untilExhausted.Agree x y) :
    untilExhausted.Agree (SessionM.atTopLevel x) (SessionM.atTopLevel y) := by
  refine .of_until fun s => (h.until s).imp (fun hsame => ?_) fun hended => ?_
  · simp only [SessionM.atTopLevel, hsame]
  · -- nothing at top level catches running out of fuel
    rcases hrun : y s with ⟨outcome, t⟩
    rw [hrun] at hended
    cases hended
    simp only [SessionM.atTopLevel, hrun]

theorem agree_evalIn (fuel : Nat) (expr : Value) (env : EnvId) :
    untilExhausted.Agree ((CallByNeed.evaluator fuel).evalIn expr env)
      ((R.evaluator fuel).evalIn expr env) := by
  have hcollect (value : Value) : untilExhausted.Keeps (SessionM.collectIfDue value) :=
    keeps_get.bind fun s => .ite ((keeps_collect [value]).bind fun _ => keeps_pure _) (keeps_pure _)
  exact (agree_atTopLevel (agree_evaluate (R.agreeAll fuel) expr env)).bind fun value =>
    (hcollect value).bind fun _ => keeps_pure _

theorem evalIn_eq {expr : Value} {env : EnvId}
    (h : ((R.evaluator fuel).evalIn expr env s).1 ≠ .error .exhausted) :
    (CallByNeed.evaluator fuel).evalIn expr env s = (R.evaluator fuel).evalIn expr env s :=
  ((R.agree_evalIn fuel expr env).until s).resolve_right h

end Restraint

end CallByNeed
