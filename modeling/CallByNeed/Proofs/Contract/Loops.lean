import CallByNeed.Proofs.Contract.Evaluation

/-!
# Loops keep every contract

Analyzing a loop and running it on whole vectors evaluate too, for they look up
the functions and variables of the body.  The record of loops is written on the
way; a contract that does not look at it (`Contract.LoopBlind`) is kept by
`runLoop`, and then by the evaluator of any fuel.
-/

namespace CallByNeed.Contract

variable {C : Contract} {ev₁ ev₂ : Evaluator} {α β : Type}

/-! ## Analysis -/

/-- Two analyses that agree whatever guard they begin with. -/
def AgreeAnalysis (C : Contract) (x y : AnalysisM α) : Prop :=
  ∀ guard, C.Agree (x guard : SessionM (Option (α × List GuardedName))) (y guard)

theorem AgreeAnalysis.bind {x y : AnalysisM α} {f g : α → AnalysisM β} (hx : C.AgreeAnalysis x y)
    (hf : ∀ a, C.AgreeAnalysis (f a) (g a)) : C.AgreeAnalysis (x >>= f) (y >>= g) := by
  intro guard
  refine (hx guard).bind fun found => ?_
  cases found with
  | none => exact keeps_pure none
  | some result => exact hf result.1 result.2

theorem keeps_analysisPure (a : α) : C.AgreeAnalysis (pure a) (pure a) :=
  fun _ => keeps_pure _

theorem keeps_analysisFailure : C.AgreeAnalysis (failure : AnalysisM α) failure :=
  fun _ => keeps_pure _

theorem keeps_analysisFailure_bind (f g : β → AnalysisM α) :
    C.AgreeAnalysis (failure >>= f) (failure >>= g) :=
  fun _ => keeps_pure _

theorem keeps_analysisOption (found : Option α) :
    C.AgreeAnalysis (StateT.lift (OptionT.mk (pure found)))
      (StateT.lift (OptionT.mk (pure found))) := by
  intro guard
  cases found with
  | none => exact keeps_pure none
  | some a => exact keeps_pure (some (a, guard))

theorem AgreeAnalysis.ite {p : Prop} [Decidable p] {x₁ x₂ y₁ y₂ : AnalysisM α}
    (hpos : C.AgreeAnalysis x₁ y₁) (hneg : C.AgreeAnalysis x₂ y₂) :
    C.AgreeAnalysis (if p then x₁ else x₂) (if p then y₁ else y₂) := by
  split
  · exact hpos
  · exact hneg

theorem AgreeAnalysis.lift {x y : SessionM α} (h : C.Agree x y) :
    C.AgreeAnalysis (x : AnalysisM α) (y : AnalysisM α) := by
  intro guard
  refine (h.map some).bind fun found => ?_
  cases found with
  | none => exact keeps_pure none
  | some a => exact keeps_pure (some (a, guard))

/-! ## Fused runs -/

def AgreeFused (C : Contract) (x y : FusedM α) : Prop := C.Agree x.run y.run

theorem AgreeFused.bind {x y : FusedM α} {f g : α → FusedM β} (hx : C.AgreeFused x y)
    (hf : ∀ a, C.AgreeFused (f a) (g a)) : C.AgreeFused (x >>= f) (y >>= g) := by
  refine Agree.bind hx fun outcome => ?_
  cases outcome with
  | error e => exact keeps_pure _
  | ok a => exact hf a

theorem keeps_fusedPure (a : α) : C.AgreeFused (pure a) (pure a) := keeps_pure _

theorem keeps_fusedThrow (e : Bailout) : C.AgreeFused (throw e : FusedM α) (throw e) :=
  keeps_pure _

theorem AgreeFused.lift {x y : SessionM α} (h : C.Agree x y) :
    C.AgreeFused (x : FusedM α) (y : FusedM α) :=
  h.map Except.ok

theorem keeps_ofBailout (e : Except Bailout α) :
    C.AgreeFused (FusedM.ofBailout e) (FusedM.ofBailout e) := keeps_pure _

theorem AgreeFused.forM {f g : α → FusedM PUnit} {items : List α}
    (h : ∀ a, C.AgreeFused (f a) (g a)) : C.AgreeFused (items.forM f) (items.forM g) := by
  induction items with
  | nil => exact keeps_fusedPure _
  | cons a rest ih => exact (h a).bind fun _ => ih

theorem AgreeFused.mapM {f g : α → FusedM β} {items : List α}
    (h : ∀ a, C.AgreeFused (f a) (g a)) : C.AgreeFused (items.mapM f) (items.mapM g) := by
  induction items with
  | nil => exact keeps_fusedPure _
  | cons a rest ih =>
    rw [List.mapM_cons, List.mapM_cons]
    exact (h a).bind fun b => ih.bind fun bs => keeps_fusedPure _

section

variable (h : C.AgreeAll ev₁ ev₂)
include h

theorem agree_loopOp (env : EnvId) (name : Symbol) :
    C.AgreeAnalysis (ev₁.loopOp env name) (ev₂.loopOp env name) := by
  refine (AgreeAnalysis.lift (agree_function? h env name).attempt).bind fun found => ?_
  split
  · split
    · exact AgreeAnalysis.bind (fun _ => keeps_pure _) fun _ => keeps_analysisPure _
    · exact keeps_analysisFailure
  · exact keeps_analysisFailure

end

mutual

theorem agree_loopExprOf (h : C.AgreeAll ev₁ ev₂) (env : EnvId) (var accumulator : Symbol)
    (expr : Value) :
    C.AgreeAnalysis (ev₁.loopExprOf env var accumulator expr)
      (ev₂.loopExprOf env var accumulator expr) := by
  match expr with
  -- names are resolved in calls only, so nothing else can tell the two evaluators apart
  | .symbol name =>
    exact .ite (keeps_analysisPure _) (.ite keeps_analysisFailure (keeps_analysisPure _))
  | .vector ⟨_, elements, attributes⟩ =>
    cases elements with
    | double xs =>
      unfold Evaluator.loopExprOf
      split
      · exact .ite (keeps_analysisPure _) keeps_analysisFailure
      · exact keeps_analysisFailure
    | _ => exact keeps_analysisFailure
  | .call ⟨_, function, args⟩ =>
    cases function with
    | symbol name =>
      refine .ite ?_ keeps_analysisFailure
      exact (agree_loopOp h env name).bind fun op =>
        (agree_loopExprsOf h env var accumulator args).bind fun operands =>
          keeps_analysisOption _
    | _ => exact keeps_analysisFailure
  | .null | .list _ | .dots _ | .closure _ | .builtin _ _ | .promise _ | .environment _ =>
    exact keeps_analysisFailure

theorem agree_loopExprsOf (h : C.AgreeAll ev₁ ev₂) (env : EnvId) (var accumulator : Symbol)
    (args : List (Arg Value)) :
    C.AgreeAnalysis (ev₁.loopExprsOf env var accumulator args)
      (ev₂.loopExprsOf env var accumulator args) := by
  match args with
  | [] => exact keeps_analysisPure _
  | ⟨_, value⟩ :: rest =>
    exact (agree_loopExprOf h env var accumulator value).bind fun operand =>
      (agree_loopExprsOf h env var accumulator rest).bind fun operands => keeps_analysisPure _

end

section

variable (h : C.AgreeAll ev₁ ev₂)
include h

theorem agree_statementOf (env : EnvId) (body : Value) :
    C.AgreeAnalysis (ev₁.statementOf env body) (ev₂.statementOf env body) := by
  unfold Evaluator.statementOf
  split
  · split
    · exact (agree_loopOp h env _).bind fun op =>
        .ite (keeps_analysisPure _) keeps_analysisFailure
    · exact keeps_analysisFailure
  · exact keeps_analysisPure _

theorem agree_accumulationOf (env : EnvId) (var : Symbol) (statement : Value) :
    C.AgreeAnalysis (ev₁.accumulationOf env var statement)
      (ev₂.accumulationOf env var statement) := by
  unfold Evaluator.accumulationOf
  split
  · split
    · refine (agree_loopOp h env _).bind fun op => .ite ?_ (keeps_analysisFailure_bind _ _)
      split
      · refine .ite (keeps_analysisFailure_bind _ _) ?_
        split
        · split
          · refine .ite ?_ (keeps_analysisFailure_bind _ _)
            exact (agree_loopOp h env _).bind fun op =>
              .ite (keeps_analysisPure _) (keeps_analysisFailure_bind _ _)
          · exact keeps_analysisFailure
        · exact keeps_analysisFailure
      · exact keeps_analysisFailure
    · exact keeps_analysisFailure
  · exact keeps_analysisFailure

theorem agree_accumulationBody (env : EnvId) (var : Symbol) (body : Value) :
    C.AgreeAnalysis (ev₁.accumulationBody env var body) (ev₂.accumulationBody env var body) := by
  refine (agree_statementOf h env body).bind fun statement => ?_
  refine (agree_accumulationOf h env var statement).bind fun (accumulator, increment) => ?_
  exact (agree_loopExprOf h env var accumulator increment).bind fun _ => keeps_analysisPure _

theorem agree_analyze (env : EnvId) (var : Symbol) (body : Value) :
    C.Agree (ev₁.analyze env var body) (ev₂.analyze env var body) := by
  refine Agree.bind (agree_accumulationBody h env var body []) fun found => ?_
  split
  · exact keeps_pure _
  · exact keeps_get.bind fun _ => .ite (keeps_pure _) (keeps_pure _)

theorem agree_checkGuard (env : EnvId) (guarded : GuardedName) :
    C.AgreeFused (ev₁.checkGuard env guarded) (ev₂.checkGuard env guarded) := by
  refine (AgreeFused.lift (agree_function? h env guarded.name).attempt).bind fun found => ?_
  split
  · split
    · exact keeps_fusedPure _
    · exact keeps_fusedThrow _
  · exact keeps_fusedThrow _

theorem agree_readAccumulator (env : EnvId) (name : Symbol) :
    C.AgreeFused (ev₁.readAccumulator env name) (ev₂.readAccumulator env name) := by
  refine (AgreeFused.lift (agree_lookup h env name).attempt).bind fun found => ?_
  cases found with
  | none => exact keeps_fusedThrow _
  | some value =>
    dsimp only
    split
    · exact keeps_fusedThrow _
    · split
      · exact keeps_fusedPure _
      · exact keeps_fusedThrow _

theorem agree_readInvariant (env : EnvId) (name : Symbol) :
    C.AgreeFused (ev₁.readInvariant env name) (ev₂.readInvariant env name) := by
  refine (AgreeFused.lift (agree_lookup h env name).attempt).bind fun found => ?_
  cases found with
  | none => exact keeps_fusedThrow _
  | some value =>
    dsimp only
    split
    · exact keeps_fusedThrow _
    · exact keeps_fusedPure _

omit h in
theorem keeps_requireForced (env : EnvId) (name : Symbol) :
    C.AgreeFused (FusedM.requireForced env name) (FusedM.requireForced env name) := by
  refine AgreeFused.bind (.lift keeps_get) fun s => ?_
  split
  · split
    · exact keeps_fusedThrow _
    · exact keeps_fusedPure _
  · exact keeps_fusedPure _

omit h in
theorem keeps_bindResult (env : EnvId) (name : Symbol) (elements : Elements)
    (attributes : Attributes) :
    C.AgreeFused (FusedM.bindResult env name elements attributes)
      (FusedM.bindResult env name elements attributes) := by
  refine (AgreeFused.lift (keeps_newVector _ _)).bind fun value => ?_
  refine (AgreeFused.lift (keeps_bindIn _ _ _).attempt).bind fun found => ?_
  cases found with
  | some _ => exact keeps_fusedPure _
  | none => exact keeps_fusedThrow _

theorem agree_fusedRun (loop : Accumulation) (env : EnvId) (var : Symbol) (sequence : Value) :
    C.AgreeFused (ev₁.fusedRun loop env var sequence) (ev₂.fusedRun loop env var sequence) := by
  refine AgreeFused.bind (.forM (keeps_requireForced env)) fun _ => ?_
  refine AgreeFused.bind (.forM (agree_checkGuard h env)) fun _ => ?_
  split
  · split
    · refine (agree_readAccumulator h env _).bind fun (start, attributes) => ?_
      refine AgreeFused.bind (.mapM (agree_readInvariant h env)) fun given => ?_
      refine AgreeFused.bind (.lift keeps_get) fun s => ?_
      refine (keeps_ofBailout _).bind fun lane => (keeps_ofBailout _).bind fun increments =>
        (keeps_ofBailout _).bind fun total => ?_
      exact (keeps_bindResult _ _ _ _).bind fun _ => keeps_bindResult _ _ _ _
    · exact keeps_fusedThrow _
  · exact keeps_fusedThrow _

theorem agree_iterate (env : EnvId) (var : Symbol) (body : Value) (elements : List Elements) :
    C.Agree (ev₁.iterate env var body elements) (ev₂.iterate env var body elements) := by
  induction elements with
  | nil => exact keeps_pure _
  | cons element rest ih =>
    exact (keeps_newVector _ _).bind fun value => (keeps_bindIn _ _ _).bind fun _ =>
      (agree_evaluate h _ _).bind fun _ => ih

theorem agree_genericRun (env : EnvId) (var : Symbol) (sequence body : Value) :
    C.Agree (ev₁.genericRun env var sequence body) (ev₂.genericRun env var sequence body) := by
  unfold Evaluator.genericRun
  split
  · exact agree_iterate h _ _ _ _
  · exact .ite (keeps_pure _) (keeps_fail rfl)

end

/-! ## Contracts that do not look at the record of loops -/

/-- Running a loop keeps the contract, whatever the two evaluators. -/
def Closed (C : Contract) : Prop :=
  ∀ ⦃ev₁ ev₂ : Evaluator⦄, C.AgreeAll ev₁ ev₂ → ∀ call env var sequence body,
    C.Agree (ev₁.runLoop call env var sequence body) (ev₂.runLoop call env var sequence body)

/-- The record of loops and the counters may change in any way. -/
def LoopBlind (C : Contract) : Prop :=
  ∀ s loops stats, C.inv s → C.rel s { s with loops, stats }

theorem Closed.agree_step (hC : C.Closed) (h : C.AgreeAll ev₁ ev₂) :
    ∀ task, C.Agree (ev₁.step task) (ev₂.step task)
  | .evaluate expr env => agree_evaluateExpr h expr env
  | .apply function call args env extra => agree_applyValue h function call args env extra
  | .loop call env var sequence body => hC h call env var sequence body

/-- The evaluator of any fuel keeps the contract. -/
theorem Closed.agree_evaluator (hC : C.Closed) (fuel : Nat) :
    C.AgreeAll (evaluator fuel) (evaluator fuel) := by
  induction fuel with
  | zero => exact ⟨fun _ => keeps_exhausted, fun _ => C.gives_evaluator⟩
  | succ fuel ih => exact ⟨hC.agree_step ih, fun _ => C.gives_evaluator⟩

namespace LoopBlind

theorem keeps_count (hC : C.LoopBlind) (change : LoopStats → LoopStats) :
    C.Keeps (SessionM.count change) :=
  keeps_modifyGet _ fun s hinv => hC s s.loops _ hinv

theorem keeps_setLoopStatus (hC : C.LoopBlind) (call : Call) (status : LoopStatus) :
    C.Keeps (SessionM.setLoopStatus call status) :=
  keeps_modifyGet _ fun s hinv => hC s _ s.stats hinv

theorem agree_ensureAnalyzed (hC : C.LoopBlind) (h : C.AgreeAll ev₁ ev₂) (call : Call)
    (env : EnvId) (var : Symbol) (body : Value) :
    C.Agree (ev₁.ensureAnalyzed call env var body) (ev₂.ensureAnalyzed call env var body) := by
  refine keeps_get.bind fun s => .ite (keeps_pure _) ?_
  refine (hC.keeps_count _).bind fun _ => (agree_analyze h _ _ _).bind fun found => ?_
  exact keeps_modifyGet _ fun s hinv => hC s _ s.stats hinv

theorem agree_tryFused (hC : C.LoopBlind) (h : C.AgreeAll ev₁ ev₂) (call : Call) (env : EnvId)
    (var : Symbol) (sequence : Value) :
    C.Agree (ev₁.tryFused call env var sequence) (ev₂.tryFused call env var sequence) := by
  refine keeps_get.bind fun s => ?_
  split
  · exact keeps_pure _
  · refine .ite (keeps_pure _) (Agree.bind (agree_fusedRun h _ _ _ _) fun outcome => ?_)
    cases outcome with
    | ok _ =>
      exact (hC.keeps_setLoopStatus _ _).bind fun _ => (hC.keeps_count _).bind
        fun _ => keeps_pure _
    | error _ =>
      exact (hC.keeps_setLoopStatus _ _).bind fun _ => (hC.keeps_count _).bind
        fun _ => keeps_pure _

/-- A contract that does not look at the record of loops is kept by running a loop. -/
theorem closed (hC : C.LoopBlind) : C.Closed := by
  intro ev₁ ev₂ h call env var sequence body
  refine keeps_get.bind fun s => .ite ?_ ?_
  · refine (hC.agree_ensureAnalyzed h _ _ _ _).bind fun _ => ?_
    refine (hC.agree_tryFused h _ _ _ _).bind fun fused => .ite (keeps_pure _) ?_
    exact (hC.keeps_count _).bind fun _ => (agree_genericRun h _ _ _ _).bind
      fun _ => keeps_pure _
  · exact (agree_genericRun h _ _ _ _).bind fun _ => keeps_pure _

end LoopBlind

end CallByNeed.Contract
