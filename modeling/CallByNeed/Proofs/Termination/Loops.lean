import CallByNeed.Proofs.Dangling.Loops
import CallByNeed.Proofs.Termination.Evaluation

/-!
# Loops come to an end

Analyzing a loop and running it on whole vectors force promises at most, and of
these there are ever fewer.  A generic run evaluates the body, which is smaller
than the loop, once for each element of a sequence that was there before.  So
each rule comes to an end with a task of a budget if it hands on tasks that come
to an end (`Evaluator.ends_step`).
-/

namespace CallByNeed

open Session

variable {α β : Type} {b : Budget} {env : EnvId}

/-! ## Analyses -/

/-- Wherever this environment is there, the analyses come to an end, whatever guard they begin
    with. -/
def EndsAnalysis (b : Budget) (env : EnvId) (x : Nat → AnalysisM α) : Prop :=
  ∀ guard s, s.Meets b → s.heap.contains env = true →
    EndsAt s (fun n => (x n guard : SessionM (Option (α × List GuardedName)))) fun _ _ => True

namespace EndsAnalysis

theorem bind {x : Nat → AnalysisM α} {f : Nat → α → AnalysisM β} (hx : EndsAnalysis b env x)
    (hf : ∀ a, EndsAnalysis b env fun n => f n a) :
    EndsAnalysis b env fun n => x n >>= f n := by
  intro guard s hs henv
  refine (hx guard s hs henv).bind fun found t ht _ => ?_
  cases found with
  | none => exact .pure ht.safe trivial
  | some result => exact hf result.1 result.2 t (ht.meets hs) (ht.live henv)

theorem pure (a : α) : EndsAnalysis b env fun _ => Pure.pure a :=
  fun _ _ hs _ => .pure hs.safe trivial

theorem unfit : EndsAnalysis b env fun _ => (failure : AnalysisM α) :=
  fun _ _ hs _ => .pure hs.safe trivial

theorem unfit_bind (f : Nat → β → AnalysisM α) :
    EndsAnalysis b env fun n => failure >>= f n :=
  fun _ _ hs _ => .pure hs.safe trivial

theorem option (found : Option α) :
    EndsAnalysis b env fun _ => StateT.lift (OptionT.mk (Pure.pure found)) := by
  intro guard s hs _
  cases found with
  | none => exact .pure (a := none) hs.safe trivial
  | some a => exact .pure (a := some (a, guard)) hs.safe trivial

theorem ite {p : Prop} [Decidable p] {x y : Nat → AnalysisM α} (hx : EndsAnalysis b env x)
    (hy : EndsAnalysis b env y) : EndsAnalysis b env fun n => if p then x n else y n := by
  split
  · exact hx
  · exact hy

theorem lift {P : Session → α → Prop} {x : Nat → SessionM α}
    (h : ∀ s, s.Meets b → s.heap.contains env = true → EndsAt s x P) :
    EndsAnalysis b env fun n => (x n : AnalysisM α) := by
  intro guard s hs henv
  refine EndsAt.bind (P := fun _ _ => True) ?_ fun found t ht _ => ?_
  · exact (h s hs henv).bind fun a t ht _ => .pure ht.safe trivial
  · cases found with
    | none => exact .pure ht.safe trivial
    | some a => exact .pure ht.safe trivial

end EndsAnalysis

/-! ## Fused runs -/

/-- Begun in this session the fused runs come to an end, and they have a value of this kind unless
    they give up. -/
def EndsFused (s : Session) (x : Nat → FusedM α) (P : Session → α → Prop) : Prop :=
  EndsAt s (fun n => (x n).run) fun t outcome => ∀ a, outcome = .ok a → P t a

namespace EndsFused

variable {s : Session} {P : Session → α → Prop} {R : Session → β → Prop}

theorem bind {x : Nat → FusedM α} {f : Nat → α → FusedM β} (hx : EndsFused s x P)
    (hf : ∀ a t, s.Proceeds t → P t a → EndsFused t (fun n => f n a) R) :
    EndsFused s (fun n => x n >>= f n) R := by
  refine EndsAt.bind hx fun outcome t ht houtcome => ?_
  cases outcome with
  | error bailout => exact .pure ht.safe fun _ h => nomatch h
  | ok a => exact hf a t ht (houtcome a rfl)

theorem pure (hs : s.Safe) {a : α} (ha : P s a) : EndsFused s (fun _ => Pure.pure a) P :=
  EndsAt.pure hs fun _ h => by cases h; exact ha

theorem giveUp (hs : s.Safe) (bailout : Bailout) :
    EndsFused s (fun _ => (throw bailout : FusedM α)) P :=
  EndsAt.pure hs fun _ h => nomatch h

theorem lift {x : Nat → SessionM α} (h : EndsAt s x P) :
    EndsFused s (fun n => (x n : FusedM α)) P :=
  h.bind fun _ _ ht ha => .pure ht.safe fun _ h => by cases h; exact ha

theorem get (hs : s.Safe) :
    EndsFused s (fun _ => (MonadState.get : SessionM Session)) fun t a => t = a :=
  lift ((EndsAt.reads hs (.get (P := (s = ·)) rfl)).weaken fun _ _ _ ⟨hsame, ha⟩ => hsame ▸ ha)

theorem ofBailout (hs : s.Safe) (e : Except Bailout α) :
    EndsFused s (fun _ => FusedM.ofBailout e) fun _ _ => True :=
  EndsAt.pure hs fun _ _ => trivial

theorem forM {f : Nat → β → FusedM PUnit} {items : List β} (hs : s.Safe)
    (h : ∀ a t, s.Proceeds t → EndsFused t (fun n => f n a) fun _ _ => True) :
    EndsFused s (fun n => items.forM (f n)) fun _ _ => True := by
  induction items generalizing s with
  | nil => exact pure hs trivial
  | cons a rest ih =>
    exact (h a s (.refl hs)).bind fun _ t ht _ => ih ht.safe fun c u hu => h c u (ht.trans hu)

theorem mapM {f : Nat → β → FusedM α} {items : List β} (hs : s.Safe)
    (h : ∀ a t, s.Proceeds t → EndsFused t (fun n => f n a) fun _ _ => True) :
    EndsFused s (fun n => items.mapM (f n)) fun _ _ => True := by
  induction items generalizing s with
  | nil => exact pure hs trivial
  | cons a rest ih =>
    simp only [List.mapM_cons]
    refine (h a s (.refl hs)).bind fun b t ht _ => ?_
    exact (ih ht.safe fun c u hu => h c u (ht.trans hu)).bind fun bs u hu _ => pure hu.safe trivial

end EndsFused

namespace Evaluator

variable {ev : Nat → Evaluator}

section

variable (hev : EndsBelow ev b)
include hev

theorem ends_loopOp (env : EnvId) (name : Symbol) :
    EndsAnalysis b env fun n => (ev n).loopOp env name := by
  refine EndsAnalysis.bind (.lift fun s hs henv => (ends_function? hev hs henv name).attempt)
    fun found => ?_
  rcases found with _ | _ | function
  · exact .unfit
  · exact .unfit
  · cases function with
    | builtin identity builtin =>
      dsimp only
      cases builtin.loopOp? with
      | none => exact .unfit
      | some op => exact .bind (fun _ _ hs _ => .pure hs.safe trivial) fun _ => .pure _
    | _ => exact .unfit

end

mutual

theorem ends_loopExprOf (hev : EndsBelow ev b) (env : EnvId) (var accumulator : Symbol)
    (expr : Value) :
    EndsAnalysis b env fun n => (ev n).loopExprOf env var accumulator expr := by
  match expr with
  | .symbol name => exact .ite (.pure _) (.ite .unfit (.pure _))
  | .vector ⟨_, elements, attributes⟩ =>
    cases elements with
    | double xs =>
      unfold loopExprOf
      rcases xs.toList with _ | ⟨x, _ | _⟩
      · exact .unfit
      · exact .ite (.pure _) .unfit
      · exact .unfit
    | _ => exact .unfit
  | .call ⟨_, function, args⟩ =>
    cases function with
    | symbol name =>
      refine .ite ?_ .unfit
      exact (ends_loopOp hev env name).bind fun op =>
        (ends_loopExprsOf hev env var accumulator args).bind fun operands => .option _
    | _ => exact .unfit
  | .null | .list _ | .dots _ | .closure _ | .builtin _ _ | .promise _ | .environment _ =>
    exact .unfit

theorem ends_loopExprsOf (hev : EndsBelow ev b) (env : EnvId) (var accumulator : Symbol)
    (args : List (Arg Value)) :
    EndsAnalysis b env fun n => (ev n).loopExprsOf env var accumulator args := by
  match args with
  | [] => exact .pure _
  | ⟨_, value⟩ :: rest =>
    exact (ends_loopExprOf hev env var accumulator value).bind fun operand =>
      (ends_loopExprsOf hev env var accumulator rest).bind fun operands => .pure _

end

section

variable (hev : EndsBelow ev b)
include hev

theorem ends_statementOf (env : EnvId) (body : Value) :
    EndsAnalysis b env fun n => (ev n).statementOf env body := by
  by_cases hblock : ∃ args, body.namedCall? = some (⟨"\x7b"⟩, args)
  · obtain ⟨args, hblock⟩ := hblock
    simp only [statementOf, hblock]
    rcases plainValues? args with _ | (_ | ⟨statement, _ | _⟩)
    case some.cons.nil =>
      exact (ends_loopOp hev env _).bind fun op => .ite (.pure _) .unfit
    all_goals exact .unfit
  · have hself (n : Nat) : (ev n).statementOf env body = Pure.pure body := by
      unfold statementOf
      split
      · rename_i args hcall
        exact absurd ⟨args, hcall⟩ hblock
      · rfl
    simp only [hself]
    exact .pure _

theorem ends_accumulationOf (env : EnvId) (var : Symbol) (statement : Value) :
    EndsAnalysis b env fun n => (ev n).accumulationOf env var statement := by
  unfold accumulationOf
  rcases statement.namedCall? with _ | ⟨assign, args⟩
  · exact .unfit
  dsimp only
  rcases plainValues? args with _ | (_ | ⟨target, _ | ⟨value, _ | _⟩⟩)
  case some.cons.cons.nil =>
    refine (ends_loopOp hev env _).bind fun op => .ite ?_ (.unfit_bind _)
    cases target with
    | symbol accumulator =>
      refine .ite (.unfit_bind _) ?_
      rcases value.namedCall? with _ | ⟨plus, operands⟩
      · exact .unfit
      dsimp only
      rcases plainValues? operands with _ | (_ | ⟨left, increments⟩)
      · exact .unfit
      · exact .unfit
      cases left with
      | symbol left =>
        rcases increments with _ | ⟨increment, _ | _⟩
        · exact .unfit
        · refine .ite ?_ (.unfit_bind _)
          exact (ends_loopOp hev env _).bind fun op => .ite (.pure _) (.unfit_bind _)
        · exact .unfit
      | _ => exact .unfit
    | _ => exact .unfit
  all_goals exact .unfit

theorem ends_accumulationBody (env : EnvId) (var : Symbol) (body : Value) :
    EndsAnalysis b env fun n => (ev n).accumulationBody env var body :=
  (ends_statementOf hev env body).bind fun statement =>
    (ends_accumulationOf hev env var statement).bind fun (accumulator, increment) =>
      (ends_loopExprOf hev env var accumulator increment).bind fun _ => .pure _

variable {s : Session} (hs : s.Meets b) (henv : s.heap.contains env = true)
include hs

include henv in
theorem ends_analyze (var : Symbol) (body : Value) :
    EndsAt s (fun n => (ev n).analyze env var body) fun _ _ => True := by
  refine (ends_accumulationBody hev env var body [] s hs henv).bind fun found t ht _ => ?_
  cases found with
  | none => exact .pure ht.safe trivial
  | some found =>
    refine .andThen ht.safe (Reads.get (P := fun _ => True) trivial) fun _ _ => ?_
    exact .ite (fun _ => .pure ht.safe trivial) fun _ => .pure ht.safe trivial

/-! ## Running on whole vectors -/

omit hev in
theorem ends_requireForced (name : Symbol) :
    EndsFused s (fun _ => FusedM.requireForced env name) fun _ _ => True := by
  refine (EndsFused.get hs.safe).bind fun _ t ht _ => ?_
  split
  · split
    · exact .giveUp ht.safe _
    · exact .pure ht.safe trivial
  · exact .pure ht.safe trivial

include henv in
theorem ends_checkGuard (guarded : GuardedName) :
    EndsFused s (fun n => (ev n).checkGuard env guarded) fun _ _ => True := by
  refine (EndsFused.lift (ends_function? hev hs henv guarded.name).attempt).bind
    fun found t ht _ => ?_
  rcases found with _ | _ | function
  · exact .giveUp ht.safe _
  · exact .giveUp ht.safe _
  · cases function with
    | builtin identity builtin =>
      dsimp only
      split
      · exact .pure ht.safe trivial
      · exact .giveUp ht.safe _
    | _ => exact .giveUp ht.safe _

include henv in
theorem ends_readAccumulator (name : Symbol) :
    EndsFused s (fun n => (ev n).readAccumulator env name)
      fun t read => t.AdmitsAttributes read.2 := by
  refine (EndsFused.lift (ends_lookup hev hs henv name).attempt).bind fun found t ht hfound => ?_
  cases found with
  | none => exact .giveUp ht.safe _
  | some value =>
    have hvalue := hfound value rfl
    dsimp only
    split
    · exact .giveUp ht.safe _
    · rename_i v hv
      split
      · obtain ⟨⟨identity, rfl⟩, -⟩ := Value.eq_of_unclassedDoubles? hv
        exact .pure ht.safe (admits_vector.1 hvalue)
      · exact .giveUp ht.safe _

include henv in
theorem ends_readInvariant (name : Symbol) :
    EndsFused s (fun n => (ev n).readInvariant env name) fun _ _ => True := by
  refine (EndsFused.lift (ends_lookup hev hs henv name).attempt).bind fun found t ht _ => ?_
  cases found with
  | none => exact .giveUp ht.safe _
  | some value =>
    dsimp only
    split
    · exact .giveUp ht.safe _
    · exact .pure ht.safe trivial

omit hev in
include henv in
theorem ends_bindResult (name : Symbol) (elements : Elements) {attributes : Attributes}
    (hattributes : s.AdmitsAttributes attributes) :
    EndsFused s (fun _ => FusedM.bindResult env name elements attributes) fun _ _ => True := by
  refine (EndsFused.lift (EndsAt.plain (safe_newVector hs.safe elements hattributes)
    (Contract.keeps_newVector _ _) (SessionM.onlyFails_newVector _ _))).bind
      fun value t ht hvalue => ?_
  refine (EndsFused.lift (ends_bindIn ht.safe (ht.live henv) name hvalue).attempt).bind
    fun found u hu _ => ?_
  cases found with
  | none => exact .giveUp hu.safe _
  | some _ => exact .pure hu.safe trivial

include henv in
theorem ends_fusedRun (loop : Accumulation) (var : Symbol) (sequence : Value) :
    EndsFused s (fun n => (ev n).fusedRun loop env var sequence) fun _ _ => True := by
  refine (EndsFused.forM hs.safe fun name t ht => ends_requireForced (ht.meets hs) name).bind
    fun _ t ht _ => ?_
  refine (EndsFused.forM ht.safe fun guarded u hu =>
    ends_checkGuard hev ((ht.trans hu).meets hs) ((ht.trans hu).live henv) guarded).bind
      fun _ u hu _ => ?_
  have hsu := ht.trans hu
  cases sequence.plainDoubles? with
  | none => exact .giveUp hu.safe _
  | some index =>
    dsimp only
    cases index.back? with
    | none => exact .giveUp hu.safe _
    | some last =>
      refine (ends_readAccumulator hev (hsu.meets hs) (hsu.live henv) _).bind
        fun (start, attributes) w hw hattributes => ?_
      have hsw := hsu.trans hw
      refine (EndsFused.mapM hw.safe fun name r hr => ends_readInvariant hev
        ((hsw.trans hr).meets hs) ((hsw.trans hr).live henv) name).bind fun given r hr _ => ?_
      refine (EndsFused.get hr.safe).bind fun _ q hq _ => ?_
      refine (EndsFused.ofBailout hq.safe _).bind fun lane q₁ hq₁ _ => ?_
      refine (EndsFused.ofBailout hq₁.safe _).bind fun increments q₂ hq₂ _ => ?_
      refine (EndsFused.ofBailout hq₂.safe _).bind fun total q₃ hq₃ _ => ?_
      -- the attributes were read before all this and are admitted still
      have hwq := (((hr.trans hq).trans hq₁).trans hq₂).trans hq₃
      have hsq := hsw.trans hwq
      refine (ends_bindResult (hsq.meets hs) (hsq.live henv) _ _
        (hwq.onward.attributes hattributes)).bind fun _ p hp _ => ?_
      have hsp := hsq.trans hp
      exact ends_bindResult (hsp.meets hs) (hsp.live henv) _ _ admitsAttributes_empty

/-! ## Running one iteration at a time -/

variable (hwithin : s.Within b env)

include hwithin in
theorem ends_iterate (var : Symbol) {body : Value} (hbody : s.Admits body)
    (hweight : 2 * sizeOf body < b.weight) (elements : List Elements) :
    EndsAt s (fun n => (ev n).iterate env var body elements) fun _ _ => True := by
  induction elements generalizing s with
  | nil => exact .pure hs.safe trivial
  | cons element rest ih =>
    refine (ends_newBare hs.safe element).bind fun value t ht hvalue => ?_
    refine (ends_bindIn ht.safe (ht.live hwithin.live) var hvalue).bind fun _ u hu _ => ?_
    have hsu := ht.trans hu
    refine (ends_evaluate hev (hsu.meets hs) (hsu.within hwithin) (hsu.admits hbody) hweight).bind
      fun _ w hw _ => ?_
    have hsw := hsu.trans hw
    exact ih (hsw.meets hs) (hsw.within hwithin) (hsw.admits hbody)

include hwithin in
theorem ends_genericRun (var : Symbol) (sequence : Value) {body : Value}
    (hbody : s.Admits body) (hweight : 2 * sizeOf body < b.weight) :
    EndsAt s (fun n => (ev n).genericRun env var sequence body) fun _ _ => True := by
  cases sequence with
  | vector v => exact ends_iterate hev hs hwithin var hbody hweight _
  | _ =>
    unfold genericRun
    dsimp only
    exact .ite (fun _ => .pure hs.safe trivial) fun _ => .fail hs.safe rfl

/-! ## Loop instances -/

omit hev in
theorem ends_count (change : LoopStats → LoopStats) :
    EndsAt s (fun _ => SessionM.count change) fun _ _ => True :=
  .plain (safe_count hs.safe change) (Contract.steady_loopBlind.keeps_count change)
    (SessionM.onlyFails_modifyGet _)

omit hev in
theorem ends_setLoopStatus (call : Call) (status : LoopStatus) :
    EndsAt s (fun _ => SessionM.setLoopStatus call status) fun _ _ => True :=
  .plain (safe_setLoopStatus hs.safe call status)
    (Contract.steady_loopBlind.keeps_setLoopStatus call status) (SessionM.onlyFails_modifyGet _)

include henv in
theorem ends_ensureAnalyzed {call : Call} (hcall : s.Admits (.call call)) (var : Symbol)
    (body : Value) :
    EndsAt s (fun n => (ev n).ensureAnalyzed call env var body) fun _ _ => True := by
  refine .andThen hs.safe (Reads.get (P := fun _ => True) trivial) fun _ _ => ?_
  refine .ite (fun _ => .pure hs.safe trivial) fun _ => ?_
  refine (ends_count hs _).bind fun _ t ht _ => ?_
  refine (ends_analyze hev (ht.meets hs) (ht.live henv) var body).bind fun found u hu _ => ?_
  refine .plain (.modifyGet (hu.safe.onward_record fun known hknown => ?_) trivial)
    (Contract.keeps_modifyGet _ fun s _ => Contract.steady_loopBlind s _ s.stats trivial)
    (SessionM.onlyFails_modifyGet _)
  obtain rfl | hknown := LoopTable.mem_calls_insert hknown
  · exact hu.admits (ht.admits hcall)
  · exact hu.safe.call_mem_loops hknown

include henv in
theorem ends_tryFused (call : Call) (var : Symbol) (sequence : Value) :
    EndsAt s (fun n => (ev n).tryFused call env var sequence) fun _ _ => True := by
  refine .andThen hs.safe (Reads.get (P := (s = ·)) rfl) fun _ hsame => ?_
  subst hsame
  cases (s.loops.status? call).bind LoopStatus.accumulation? with
  | none => exact .pure hs.safe trivial
  | some loop =>
    refine .ite (fun _ => .pure hs.safe trivial) fun _ => ?_
    refine EndsAt.bind (ends_fusedRun hev hs henv _ var sequence) fun outcome t ht _ => ?_
    cases outcome with
    | ok _ =>
      exact (ends_setLoopStatus (ht.meets hs) _ _).bind fun _ u hu _ =>
        (ends_count (hu.meets (ht.meets hs)) _).bind fun _ w hw _ => .pure hw.safe trivial
    | error _ =>
      exact (ends_setLoopStatus (ht.meets hs) _ _).bind fun _ u hu _ =>
        (ends_count (hu.meets (ht.meets hs)) _).bind fun _ w hw _ => .pure hw.safe trivial

include hwithin in
theorem ends_runLoop {call : Call} (hcall : s.Admits (.call call)) (var : Symbol)
    (sequence : Value) {body : Value} (hbody : s.Admits body)
    (hweight : 2 * sizeOf body < b.weight) :
    EndsAt s (fun n => (ev n).runLoop call env var sequence body) Admits := by
  refine .andThen hs.safe (Reads.get (P := fun _ => True) trivial) fun _ _ =>
    .ite (fun _ => ?_) fun _ => ?_
  · refine (ends_ensureAnalyzed hev hs hwithin.live hcall var body).bind fun _ t ht _ => ?_
    refine (ends_tryFused hev (ht.meets hs) (ht.live hwithin.live) call var sequence).bind
      fun fused u hu _ => ?_
    have hsu := ht.trans hu
    refine .ite (fun _ => .pure hu.safe admits_null) fun _ => ?_
    refine (ends_count (hsu.meets hs) _).bind fun _ w hw _ => ?_
    have hsw := hsu.trans hw
    exact (ends_genericRun hev (hsw.meets hs) (hsw.within hwithin) var sequence
      (hsw.admits hbody) hweight).bind fun _ r hr _ => .pure hr.safe admits_null
  · exact (ends_genericRun hev hs hwithin var sequence hbody hweight).bind
      fun _ t ht _ => .pure ht.safe admits_null

/-! ## Tasks -/

/-- What the evaluators hand on comes to an end, so the task does. -/
theorem ends_step {task : Task} (htask : s.AdmitsTask task) (hrank : s.rank task.env ≤ b.rank)
    (hweight : task.weight ≤ b.weight) : EndsAt s (fun n => (ev n).step task) Admits := by
  cases task with
  | evaluate expr env => exact ends_evaluateExpr hev hs ⟨htask.2, hrank⟩ htask.1 hweight
  | apply function call args env extra =>
    obtain ⟨hfunction, hcall, hargs, henv, hextra⟩ := htask
    exact ends_applyValue hev hs ⟨henv, hrank⟩ hfunction hcall hargs hextra hweight
  | loop call env var sequence body =>
    obtain ⟨hcall, henv, -, hbody⟩ := htask
    exact ends_runLoop hev hs ⟨henv, hrank⟩ hcall var sequence hbody
      (Nat.lt_of_succ_le hweight)

end

end Evaluator

end CallByNeed
