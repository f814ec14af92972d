import CallByNeed.Proofs.Dangling.Evaluation
import CallByNeed.Proofs.LoopTable
import CallByNeed.Proofs.Operations

/-!
# Loops are safe

Analyzing a loop and running it on whole vectors look up the functions and
variables of the body, and may force promises on the way.  A loop expression has
no environment in it, so of what was found before nothing but the attributes of
the accumulator is bound later.  With that, the evaluator of any fuel carries out
every admitted task safely.
-/

namespace CallByNeed

open Session

variable {α β : Type} {env : EnvId}

/-! ## Analyses -/

/-- Wherever this environment is there, the analysis is safe, whatever guard it begins with. -/
def SafeAnalysis (env : EnvId) (x : AnalysisM α) : Prop :=
  ∀ guard s, s.Safe → s.heap.contains env = true →
    SafeAt s (x guard : SessionM (Option (α × List GuardedName))) fun _ _ => True

namespace SafeAnalysis

theorem bind {x : AnalysisM α} {f : α → AnalysisM β} (hx : SafeAnalysis env x)
    (hf : ∀ a, SafeAnalysis env (f a)) : SafeAnalysis env (x >>= f) := by
  intro guard s hs henv
  refine (hx guard s hs henv).bind fun found t ht _ => ?_
  cases found with
  | none => exact .pure ht.safe trivial
  | some result => exact hf result.1 result.2 t ht.safe (ht.live henv)

theorem pure (a : α) : SafeAnalysis env (pure a) := fun _ _ hs _ => .pure hs trivial

theorem unfit : SafeAnalysis env (failure : AnalysisM α) := fun _ _ hs _ => .pure hs trivial

theorem unfit_bind (f : β → AnalysisM α) : SafeAnalysis env (failure >>= f) :=
  fun _ _ hs _ => .pure hs trivial

theorem option (found : Option α) :
    SafeAnalysis env (StateT.lift (OptionT.mk (Pure.pure found))) := by
  intro guard s hs _
  cases found with
  | none => exact .pure (a := none) hs trivial
  | some a => exact .pure (a := some (a, guard)) hs trivial

theorem ite {p : Prop} [Decidable p] {x y : AnalysisM α} (hx : SafeAnalysis env x)
    (hy : SafeAnalysis env y) : SafeAnalysis env (if p then x else y) := by
  split
  · exact hx
  · exact hy

theorem lift {P : Session → α → Prop} {x : SessionM α}
    (h : ∀ s, s.Safe → s.heap.contains env = true → SafeAt s x P) :
    SafeAnalysis env (x : AnalysisM α) := by
  intro guard s hs henv
  refine SafeAt.bind (P := fun _ _ => True) ?_ fun found t ht _ => ?_
  · exact (h s hs henv).bind fun a t ht _ => .pure ht.safe trivial
  · cases found with
    | none => exact .pure ht.safe trivial
    | some a => exact .pure ht.safe trivial

end SafeAnalysis

/-! ## Fused runs -/

/-- Begun in this session the fused run is safe, and it has a value of this kind unless it gives
    up. -/
def SafeFused (s : Session) (x : FusedM α) (P : Session → α → Prop) : Prop :=
  SafeAt s x.run fun t outcome => ∀ a, outcome = .ok a → P t a

namespace SafeFused

variable {s : Session} {P : Session → α → Prop} {R : Session → β → Prop}

theorem bind {x : FusedM α} {f : α → FusedM β} (hx : SafeFused s x P)
    (hf : ∀ a t, s.Onward t → P t a → SafeFused t (f a) R) : SafeFused s (x >>= f) R := by
  refine SafeAt.bind hx fun outcome t ht houtcome => ?_
  cases outcome with
  | error bailout => exact .pure ht.safe fun _ h => nomatch h
  | ok a => exact hf a t ht (houtcome a rfl)

theorem pure (hs : s.Safe) {a : α} (ha : P s a) : SafeFused s (pure a) P :=
  SafeAt.pure hs fun _ h => by cases h; exact ha

theorem giveUp (hs : s.Safe) (bailout : Bailout) : SafeFused s (throw bailout : FusedM α) P :=
  SafeAt.pure hs fun _ h => nomatch h

theorem lift {x : SessionM α} (h : SafeAt s x P) : SafeFused s (x : FusedM α) P :=
  h.bind fun _ _ ht ha => .pure ht.safe fun _ h => by cases h; exact ha

theorem get (hs : s.Safe) {P : Session → Session → Prop} (h : P s s) :
    SafeFused s (MonadState.get : SessionM Session) P :=
  lift (Reads.get (P := P s) h |>.safeAt hs)

theorem ofBailout (hs : s.Safe) (e : Except Bailout α) :
    SafeFused s (FusedM.ofBailout e) fun _ _ => True :=
  SafeAt.pure hs fun _ _ => trivial

theorem forM {f : α → FusedM PUnit} {items : List α} (hs : s.Safe)
    (h : ∀ a t, s.Onward t → SafeFused t (f a) fun _ _ => True) :
    SafeFused s (items.forM f) fun _ _ => True := by
  induction items generalizing s with
  | nil => exact pure hs trivial
  | cons a rest ih =>
    exact (h a s (.refl hs)).bind fun _ t ht _ => ih ht.safe fun b u hu => h b u (ht.trans hu)

theorem mapM {f : α → FusedM β} {items : List α} (hs : s.Safe)
    (h : ∀ a t, s.Onward t → SafeFused t (f a) fun _ _ => True) :
    SafeFused s (items.mapM f) fun _ _ => True := by
  induction items generalizing s with
  | nil => exact pure hs trivial
  | cons a rest ih =>
    rw [List.mapM_cons]
    refine (h a s (.refl hs)).bind fun b t ht _ => ?_
    exact (ih ht.safe fun c u hu => h c u (ht.trans hu)).bind fun bs u hu _ => pure hu.safe trivial

end SafeFused

namespace Evaluator

variable {ev : Evaluator}

section

variable (hev : ev.IsSafe)
include hev

theorem safe_loopOp (env : EnvId) (name : Symbol) : SafeAnalysis env (ev.loopOp env name) := by
  refine SafeAnalysis.bind (.lift fun s hs henv => (safe_function? hev hs henv name).attempt)
    fun found => ?_
  split
  · split
    · exact .bind (fun _ _ hs _ => .pure hs trivial) fun _ => .pure _
    · exact .unfit
  · exact .unfit

end

mutual

theorem safe_loopExprOf (hev : ev.IsSafe) (env : EnvId) (var accumulator : Symbol)
    (expr : Value) : SafeAnalysis env (ev.loopExprOf env var accumulator expr) := by
  match expr with
  | .symbol name => exact .ite (.pure _) (.ite .unfit (.pure _))
  | .vector ⟨_, elements, attributes⟩ =>
    cases elements with
    | double xs =>
      unfold loopExprOf
      split
      · exact .ite (.pure _) .unfit
      · exact .unfit
    | _ => exact .unfit
  | .call ⟨_, function, args⟩ =>
    cases function with
    | symbol name =>
      refine .ite ?_ .unfit
      exact (safe_loopOp hev env name).bind fun op =>
        (safe_loopExprsOf hev env var accumulator args).bind fun operands => .option _
    | _ => exact .unfit
  | .null | .list _ | .dots _ | .closure _ | .builtin _ _ | .promise _ | .environment _ =>
    exact .unfit

theorem safe_loopExprsOf (hev : ev.IsSafe) (env : EnvId) (var accumulator : Symbol)
    (args : List (Arg Value)) : SafeAnalysis env (ev.loopExprsOf env var accumulator args) := by
  match args with
  | [] => exact .pure _
  | ⟨_, value⟩ :: rest =>
    exact (safe_loopExprOf hev env var accumulator value).bind fun operand =>
      (safe_loopExprsOf hev env var accumulator rest).bind fun operands => .pure _

end

section

variable (hev : ev.IsSafe)
include hev

theorem safe_statementOf (env : EnvId) (body : Value) :
    SafeAnalysis env (ev.statementOf env body) := by
  unfold statementOf
  split
  · split
    · exact (safe_loopOp hev env _).bind fun op => .ite (.pure _) .unfit
    · exact .unfit
  · exact .pure _

theorem safe_accumulationOf (env : EnvId) (var : Symbol) (statement : Value) :
    SafeAnalysis env (ev.accumulationOf env var statement) := by
  unfold accumulationOf
  split
  · split
    · refine (safe_loopOp hev env _).bind fun op => .ite ?_ (.unfit_bind _)
      split
      · refine .ite (.unfit_bind _) ?_
        split
        · split
          · refine .ite ?_ (.unfit_bind _)
            exact (safe_loopOp hev env _).bind fun op => .ite (.pure _) (.unfit_bind _)
          · exact .unfit
        · exact .unfit
      · exact .unfit
    · exact .unfit
  · exact .unfit

theorem safe_accumulationBody (env : EnvId) (var : Symbol) (body : Value) :
    SafeAnalysis env (ev.accumulationBody env var body) :=
  (safe_statementOf hev env body).bind fun statement =>
    (safe_accumulationOf hev env var statement).bind fun (accumulator, increment) =>
      (safe_loopExprOf hev env var accumulator increment).bind fun _ => .pure _

variable {s : Session} (hs : s.Safe) (henv : s.heap.contains env = true)
include hs

include henv in
theorem safe_analyze (var : Symbol) (body : Value) :
    SafeAt s (ev.analyze env var body) fun _ _ => True := by
  refine (safe_accumulationBody hev env var body [] s hs henv).bind fun found t ht _ => ?_
  cases found with
  | none => exact .pure ht.safe trivial
  | some found =>
    refine (Reads.get (P := fun _ => True) trivial).andThen ht.safe fun _ _ => ?_
    exact .ite (fun _ => .pure ht.safe trivial) fun _ => .pure ht.safe trivial

/-! ## Running on whole vectors -/

omit hev in
theorem safe_requireForced (name : Symbol) :
    SafeFused s (FusedM.requireForced env name) fun _ _ => True := by
  refine (SafeFused.get (P := fun _ _ => True) hs trivial).bind fun _ t ht _ => ?_
  split
  · split
    · exact .giveUp ht.safe _
    · exact .pure ht.safe trivial
  · exact .pure ht.safe trivial

include henv in
theorem safe_checkGuard (guarded : GuardedName) :
    SafeFused s (ev.checkGuard env guarded) fun _ _ => True := by
  refine (SafeFused.lift (safe_function? hev hs henv guarded.name).attempt).bind
    fun found t ht _ => ?_
  split
  · split
    · exact .pure ht.safe trivial
    · exact .giveUp ht.safe _
  · exact .giveUp ht.safe _

include henv in
theorem safe_readAccumulator (name : Symbol) :
    SafeFused s (ev.readAccumulator env name) fun t read => t.AdmitsAttributes read.2 := by
  refine (SafeFused.lift (safe_lookup hev hs henv name).attempt).bind fun found t ht hfound => ?_
  cases found with
  | none => exact .giveUp ht.safe _
  | some value =>
    have hvalue := hfound value rfl
    dsimp only
    split
    · exact .giveUp ht.safe _
    · rename_i v hv
      split
      · obtain ⟨⟨identity, rfl⟩, -⟩ := Value.eq_of_unclassedDoubles? hv
        exact .pure ht.safe (admits_vector.1 hvalue)
      · exact .giveUp ht.safe _

include henv in
theorem safe_readInvariant (name : Symbol) :
    SafeFused s (ev.readInvariant env name) fun _ _ => True := by
  refine (SafeFused.lift (safe_lookup hev hs henv name).attempt).bind fun found t ht _ => ?_
  cases found with
  | none => exact .giveUp ht.safe _
  | some value =>
    dsimp only
    split
    · exact .giveUp ht.safe _
    · exact .pure ht.safe trivial

omit hev in
include henv in
theorem safe_bindResult (name : Symbol) (elements : Elements) {attributes : Attributes}
    (hattributes : s.AdmitsAttributes attributes) :
    SafeFused s (FusedM.bindResult env name elements attributes) fun _ _ => True := by
  refine (SafeFused.lift (safe_newVector hs elements hattributes)).bind fun value t ht hvalue => ?_
  refine (SafeFused.lift (safe_bindIn ht.safe (ht.live henv) name hvalue).attempt).bind
    fun found u hu _ => ?_
  cases found with
  | none => exact .giveUp hu.safe _
  | some _ => exact .pure hu.safe trivial

include henv in
theorem safe_fusedRun (loop : Accumulation) (var : Symbol) (sequence : Value) :
    SafeFused s (ev.fusedRun loop env var sequence) fun _ _ => True := by
  refine (SafeFused.forM hs fun name t ht => safe_requireForced ht.safe name).bind
    fun _ t ht _ => ?_
  refine (SafeFused.forM ht.safe fun guarded u hu =>
    safe_checkGuard hev hu.safe ((ht.trans hu).live henv) guarded).bind fun _ u hu _ => ?_
  have hsu := ht.trans hu
  split
  · split
    · refine (safe_readAccumulator hev hu.safe (hsu.live henv) _).bind
        fun (start, attributes) w hw hattributes => ?_
      have hsw := hsu.trans hw
      refine (SafeFused.mapM hw.safe fun name r hr =>
        safe_readInvariant hev hr.safe ((hsw.trans hr).live henv) name).bind fun given r hr _ => ?_
      refine (SafeFused.get (P := fun _ _ => True) hr.safe trivial).bind fun _ q hq _ => ?_
      refine (SafeFused.ofBailout hq.safe _).bind fun lane q₁ hq₁ _ => ?_
      refine (SafeFused.ofBailout hq₁.safe _).bind fun increments q₂ hq₂ _ => ?_
      refine (SafeFused.ofBailout hq₂.safe _).bind fun total q₃ hq₃ _ => ?_
      -- the attributes were read before all this and are admitted still
      have hwq := (((hr.trans hq).trans hq₁).trans hq₂).trans hq₃
      have hlive := (hsw.trans hwq).live henv
      refine (safe_bindResult hq₃.safe hlive _ _ (hwq.attributes hattributes)).bind
        fun _ p hp _ => ?_
      exact safe_bindResult hp.safe (hp.live hlive) _ _ admitsAttributes_empty
    · exact .giveUp hu.safe _
  · exact .giveUp hu.safe _

/-! ## Running one iteration at a time -/

include henv in
theorem safe_iterate (var : Symbol) {body : Value} (hbody : s.Admits body)
    (elements : List Elements) :
    SafeAt s (ev.iterate env var body elements) fun _ _ => True := by
  induction elements generalizing s with
  | nil => exact .pure hs trivial
  | cons element rest ih =>
    refine (safe_newBare hs element).bind fun value t ht hvalue => ?_
    refine (safe_bindIn ht.safe (ht.live henv) var hvalue).bind fun _ u hu _ => ?_
    have hsu := ht.trans hu
    refine (safe_evaluate hev hu.safe (hsu.live henv) (hsu.admits hbody)).bind fun _ w hw _ => ?_
    have hsw := hsu.trans hw
    exact ih hw.safe (hsw.live henv) (hsw.admits hbody)

include henv in
theorem safe_genericRun (var : Symbol) (sequence : Value) {body : Value}
    (hbody : s.Admits body) :
    SafeAt s (ev.genericRun env var sequence body) fun _ _ => True := by
  unfold genericRun
  split
  · exact safe_iterate hev hs henv var hbody _
  · exact .ite (fun _ => .pure hs trivial) fun _ => .fail hs rfl

/-! ## Loop instances -/

omit hev in
theorem safe_count (change : LoopStats → LoopStats) :
    SafeAt s (SessionM.count change) fun _ _ => True :=
  .modifyGet (hs.onward_record fun _ => hs.call_mem_loops) trivial

omit hev in
theorem safe_setLoopStatus (call : Call) (status : LoopStatus) :
    SafeAt s (SessionM.setLoopStatus call status) fun _ _ => True := by
  refine .modifyGet (hs.onward_record fun known hknown => hs.call_mem_loops ?_) trivial
  rwa [s.loops.calls_set] at hknown

include henv in
theorem safe_ensureAnalyzed {call : Call} (hcall : s.Admits (.call call)) (var : Symbol)
    (body : Value) : SafeAt s (ev.ensureAnalyzed call env var body) fun _ _ => True := by
  refine (Reads.get (P := fun _ => True) trivial).andThen hs fun _ _ => ?_
  refine .ite (fun _ => .pure hs trivial) fun _ => ?_
  refine (safe_count hs _).bind fun _ t ht _ => ?_
  refine (safe_analyze hev ht.safe (ht.live henv) var body).bind fun found u hu _ => ?_
  -- from now on collections start from the call of this loop too
  refine .modifyGet (hu.safe.onward_record fun known hknown => ?_) trivial
  obtain rfl | hknown := LoopTable.mem_calls_insert hknown
  · exact hu.admits (ht.admits hcall)
  · exact hu.safe.call_mem_loops hknown

include henv in
theorem safe_tryFused (call : Call) (var : Symbol) (sequence : Value) :
    SafeAt s (ev.tryFused call env var sequence) fun _ _ => True := by
  refine (Reads.get (P := fun _ => True) trivial).andThen hs fun _ _ => ?_
  split
  · exact .pure hs trivial
  · refine .ite (fun _ => .pure hs trivial) fun _ => ?_
    refine SafeAt.bind (safe_fusedRun hev hs henv _ var sequence) fun outcome t ht _ => ?_
    cases outcome with
    | ok _ =>
      exact (safe_setLoopStatus ht.safe _ _).bind fun _ u hu _ =>
        (safe_count hu.safe _).bind fun _ w hw _ => .pure hw.safe trivial
    | error _ =>
      exact (safe_setLoopStatus ht.safe _ _).bind fun _ u hu _ =>
        (safe_count hu.safe _).bind fun _ w hw _ => .pure hw.safe trivial

include henv in
theorem safe_runLoop {call : Call} (hcall : s.Admits (.call call)) (var : Symbol)
    (sequence : Value) {body : Value} (hbody : s.Admits body) :
    SafeAt s (ev.runLoop call env var sequence body) Admits := by
  refine (Reads.get (P := fun _ => True) trivial).andThen hs fun _ _ =>
    .ite (fun _ => ?_) fun _ => ?_
  · refine (safe_ensureAnalyzed hev hs henv hcall var body).bind fun _ t ht _ => ?_
    refine (safe_tryFused hev ht.safe (ht.live henv) call var sequence).bind
      fun fused u hu _ => ?_
    have hsu := ht.trans hu
    refine .ite (fun _ => .pure hu.safe admits_null) fun _ => ?_
    refine (safe_count hu.safe _).bind fun _ w hw _ => ?_
    have hsw := hsu.trans hw
    exact (safe_genericRun hev hw.safe (hsw.live henv) var sequence (hsw.admits hbody)).bind
      fun _ r hr _ => .pure hr.safe admits_null
  · exact (safe_genericRun hev hs henv var sequence hbody).bind
      fun _ t ht _ => .pure ht.safe admits_null

end

/-! ## Evaluators -/

theorem IsSafe.step (hev : ev.IsSafe) : IsSafe ev.step := by
  intro task s hs htask
  cases task with
  | evaluate expr env => exact safe_evaluateExpr hev hs htask.2 htask.1
  | apply function call args env extra =>
    obtain ⟨hfunction, hcall, hargs, henv, hextra⟩ := htask
    exact safe_applyValue hev hs henv hfunction hcall hargs hextra
  | loop call env var sequence body =>
    obtain ⟨hcall, henv, -, hbody⟩ := htask
    exact safe_runLoop hev hs henv hcall var sequence hbody

end Evaluator

/-- The evaluator of any fuel carries out every admitted task safely. -/
theorem isSafe_evaluator (fuel : Nat) : (evaluator fuel).IsSafe := by
  induction fuel with
  | zero => exact fun _ _ hs _ => .exhausted hs
  | succ fuel ih => exact ih.step

end CallByNeed
