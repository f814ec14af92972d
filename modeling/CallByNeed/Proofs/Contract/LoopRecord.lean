import CallByNeed.Proofs.Contract.Loops

/-!
# Contracts about the record of loops

The record of loops is written where an instance is analyzed and where it was
tried on whole vectors.  `Contract.WritesLoops` lists what a contract has to
allow there.

Analyzing a loop and checking its guard may force promises, and a promise may
run that very loop.  Then the decision that is under way is overtaken: the
instance is already there when its analysis enters it, or is generic already
when its trial ends.  `loneEvaluator` is the evaluator that gives up in these
two cases; where it does not give up, `evaluator` does the same
(`agree_loneEvaluator`).
-/

namespace CallByNeed

/-! ## Contracts about the record of loops -/

namespace Contract

variable {C : Contract} {ev₁ ev₂ : Evaluator}

/-- A contract that looks at nothing but the record of loops and the counters. -/
def ofLoops (inv : Session → Prop) (rel : Session → Session → Prop) (lenient : Prop)
    (same : ∀ {s t : Session}, t.loops = s.loops → t.stats = s.stats → rel s t)
    (trans : ∀ {s t u}, rel s t → rel t u → rel s u)
    (inv_of_rel : ∀ {s t}, inv s → rel s t → inv t) : Contract where
  inv := inv
  rel := rel
  raises _ _ := True
  lenient := lenient
  refl _ := same rfl rfl
  trans := trans
  inv_of_rel := inv_of_rel
  raises_of_rel _ _ _ := trivial
  move _ hmove := by cases hmove <;> exact same rfl rfl
  raises_failure _ _ := trivial
  raises_overflow _ _ := trivial
  raises_exhausted _ := trivial
  raises_returning _ _ _ := trivial
  inv_mark hinv _ := inv_of_rel hinv (same rfl rfl)
  unmark _ _ hrel := trans (same (t := Session.mark _ _ true) rfl rfl) (trans hrel (same rfl rfl))
  keep _ _ _ _ hrel := trans (same (t := Session.mark _ _ true) rfl rfl) (trans hrel (same rfl rfl))
  raises_unmark _ _ _ := trivial
  inv_enter _ _ hinv _ _ := inv_of_rel hinv (same rfl rfl)
  leave i _ _ hrel := trans (same (t := Session.enter _ i) rfl rfl) (trans hrel (same rfl rfl))
  raises_leave _ _ _ _ _ := trivial

/-- Nothing is asked for, but that both evaluators do the same until the second one runs out of
    fuel. -/
def untilExhausted : Contract :=
  .ofLoops (fun _ => True) (fun _ _ => True) True (fun _ _ => trivial) (fun _ _ => trivial)
    (fun _ _ => trivial)

theorem untilExhausted_loopBlind : untilExhausted.LoopBlind := fun _ _ _ _ => trivial

theorem Agree.until {α : Type} {x y : SessionM α} (h : untilExhausted.Agree x y) (s : Session) :
    x s = y s ∨ (y s).1 = .error .exhausted :=
  (h s trivial).same.imp_right And.right

theorem Agree.of_until {α : Type} {x y : SessionM α}
    (h : ∀ s, x s = y s ∨ (y s).1 = .error .exhausted) : untilExhausted.Agree x y :=
  fun s _ => ⟨(h s).imp_right fun hended => ⟨trivial, hended⟩, trivial, fun _ _ => trivial⟩

theorem AgreeAll.of_until
    (h : ∀ task s, ev₁ task s = ev₂ task s ∨ (ev₂ task s).1 = .error .exhausted) :
    untilExhausted.AgreeAll ev₁ ev₂ :=
  ⟨fun task => .of_until (h task), fun _ _ => trivial⟩

end Contract

/-! ## Evaluators that give up when a decision is overtaken -/

/-- An action that is run only in sessions with a property; elsewhere it gives up, as if out of
    fuel. -/
def SessionM.onlyIf {α : Type} (p : Session → Bool) (act : SessionM α) : SessionM α := fun s =>
  if p s then act s else (.error .exhausted, s)

namespace Evaluator

variable (ev : Evaluator)

/-- The analysis of a loop instance, if one is made, does not find it entered at the end. -/
def analysisAlone (call : Call) (env : EnvId) (var : Symbol) (body : Value) (s : Session) : Bool :=
  s.loops.contains call ||
    match ev.analyze env var body s.countAnalysis with
    | (.ok _, t) => !t.loops.contains call
    | (.error _, _) => false

/-- The trial of a loop instance on whole vectors, if one is made, does not find it generic at the
    end. -/
def trialAlone (call : Call) (env : EnvId) (var : Symbol) (sequence : Value) (s : Session) : Bool :=
  match (s.loops.status? call).bind LoopStatus.accumulation? with
  | none => true
  | some loop =>
    ((ev.fusedRun loop env var sequence).run s).2.loops.phase? call != some .generic

/-- Run the loop of a `for` call, but give up if another run of it decides about it meanwhile. -/
def runLoopAlone (call : Call) (env : EnvId) (var : Symbol) (sequence body : Value) :
    SessionM Value := do
  if (← get).options.compileLoops then
    SessionM.onlyIf (ev.analysisAlone call env var body) (ev.ensureAnalyzed call env var body)
    let fused ←
      SessionM.onlyIf (ev.trialAlone call env var sequence) (ev.tryFused call env var sequence)
    unless fused do
      SessionM.count fun stats => { stats with genericRuns := stats.genericRuns + 1 }
      ev.genericRun env var sequence body
  else ev.genericRun env var sequence body
  return .null

end Evaluator

/-- The evaluator of some fuel, but it gives up if a decision about a loop is overtaken. -/
def loneEvaluator : (fuel : Nat) → Evaluator
  | 0, _ => throw .exhausted
  | fuel + 1, .loop call env var sequence body =>
    (loneEvaluator fuel).runLoopAlone call env var sequence body
  | fuel + 1, task => (loneEvaluator fuel).step task

/-! ## Contracts that loops keep -/

namespace Contract

variable {C : Contract} {ev₁ ev₂ : Evaluator}

/-- What a contract has to allow for loops to keep it: the writes to the record of loops.  A lenient
    one may suppose that no decision was overtaken. -/
structure WritesLoops (C : Contract) : Prop where
  inv_count : ∀ {s}, C.inv s → C.inv s.countAnalysis
  count : ∀ {s}, C.inv s → C.rel s s.countGenericRun
  raises : ∀ s e, C.raises s e
  interrupt : ∀ {s t}, ¬ C.lenient → C.inv s → C.rel s.countAnalysis t → C.rel s t
  enter : ∀ {s t call} (status : LoopStatus), C.inv s → s.loops.contains call = false →
    C.rel s.countAnalysis t → (C.lenient → t.loops.contains call = false) →
    C.rel s (t.enterLoop call status)
  fuse : ∀ {s t call loop}, C.inv s →
    (s.loops.status? call).bind LoopStatus.accumulation? = some loop → C.rel s t →
    (C.lenient → t.loops.phase? call ≠ some .generic) → C.rel s (t.fuseLoop call loop)
  bail : ∀ {s t call loop}, C.inv s →
    (s.loops.status? call).bind LoopStatus.accumulation? = some loop → C.rel s t →
    (C.lenient → t.loops.phase? call ≠ some .generic) → C.rel s (t.bailLoop call)

namespace WritesLoops

variable {s : Session} {call : Call} {env : EnvId} {var : Symbol} {sequence body : Value}

theorem agreeAt_ensureAnalyzed (hC : C.WritesLoops) (h : C.AgreeAll ev₁ ev₂) (hinv : C.inv s)
    (halone : C.lenient → ev₂.analysisAlone call env var body s = true) :
    C.AgreeAt s (ev₁.ensureAnalyzed call env var body) (ev₂.ensureAnalyzed call env var body) := by
  cases hknown : s.loops.contains call with
  | true =>
    exact .of_run (ev₁.ensureAnalyzed_run_known env var body hknown)
      (ev₂.ensureAnalyzed_run_known env var body hknown) (C.refl s) fun _ h => nomatch h
  | false =>
    obtain ⟨hsame, hrel, hraises⟩ := agree_analyze h env var body _ (hC.inv_count hinv)
    have hrun₁ := ev₁.ensureAnalyzed_run_new env var body hknown
    have hrun₂ := ev₂.ensureAnalyzed_run_new env var body hknown
    simp only [Evaluator.analysisAlone, hknown, Bool.false_or] at halone
    rcases hy : ev₂.analyze env var body s.countAnalysis with ⟨_ | found, t⟩ <;>
      rw [hy] at hsame hrun₂ hrel hraises halone
    -- an interrupted analysis does not count as alone, so only a strict contract gets here
    · have hstrict : ¬ C.lenient := fun hlenient => Bool.false_ne_true (halone hlenient)
      rw [hsame.resolve_right fun h => hstrict h.1] at hrun₁
      exact .of_run hrun₁ hrun₂ (hC.interrupt hstrict hinv hrel) fun e _ => hC.raises s e
    · rw [hsame.resolve_right fun h => nomatch h.2] at hrun₁
      refine .of_run hrun₁ hrun₂ (hC.enter _ hinv hknown hrel fun hlenient => ?_)
        fun _ h => nomatch h
      simpa using halone hlenient

theorem agreeAt_tryFused (hC : C.WritesLoops) (h : C.AgreeAll ev₁ ev₂) (hinv : C.inv s)
    (halone : C.lenient → ev₂.trialAlone call env var sequence s = true) :
    C.AgreeAt s (ev₁.tryFused call env var sequence) (ev₂.tryFused call env var sequence) := by
  cases hloop : (s.loops.status? call).bind LoopStatus.accumulation? with
  | none =>
    exact .of_run (ev₁.tryFused_run_unfit env var sequence hloop)
      (ev₂.tryFused_run_unfit env var sequence hloop) (C.refl s) fun _ h => nomatch h
  | some loop =>
    by_cases hlength : sequence.length = 0
    · exact .of_run (ev₁.tryFused_run_empty env var hlength)
        (ev₂.tryFused_run_empty env var hlength) (C.refl s) fun _ h => nomatch h
    obtain ⟨hsame, hrel, hraises⟩ := agree_fusedRun h loop env var sequence s hinv
    have hrun₁ := ev₁.tryFused_run_fit env var hloop hlength
    have hrun₂ := ev₂.tryFused_run_fit env var hloop hlength
    simp only [Evaluator.trialAlone, hloop] at halone
    rcases hy : (ev₂.fusedRun loop env var sequence).run s with ⟨e | (_ | _), t⟩ <;>
      rw [hy] at hsame hrun₂ hrel hraises halone
    -- an interrupt passes through a trial and leaves the record as the run left it
    · rcases hsame with hx | ⟨hlenient, he⟩
      · rw [hx] at hrun₁
        exact .of_run hrun₁ hrun₂ hrel fun e' he => by cases he; exact hraises e rfl
      · cases he
        exact .of_exhausted hinv hlenient hrun₂ hrel
    · rw [hsame.resolve_right fun h => nomatch h.2] at hrun₁
      refine .of_run hrun₁ hrun₂ (hC.bail hinv hloop hrel fun hlenient => ?_)
        fun _ h => nomatch h
      simpa using halone hlenient
    · rw [hsame.resolve_right fun h => nomatch h.2] at hrun₁
      refine .of_run hrun₁ hrun₂ (hC.fuse hinv hloop hrel fun hlenient => ?_)
        fun _ h => nomatch h
      simpa using halone hlenient

theorem agree_count (hC : C.WritesLoops) :
    C.Keeps (SessionM.count fun stats => { stats with genericRuns := stats.genericRuns + 1 }) :=
  keeps_modifyGet _ fun _ hinv => hC.count hinv

/-- A strict contract is kept by running a loop, whatever is overtaken. -/
theorem closed (hC : C.WritesLoops) (hstrict : ¬ C.lenient) : C.Closed := by
  intro ev₁ ev₂ h call env var sequence body
  refine keeps_get.bind fun s => .ite ?_ ?_
  · refine Agree.bind (fun s hinv => hC.agreeAt_ensureAnalyzed h hinv fun hl => absurd hl hstrict)
      fun _ => ?_
    refine Agree.bind (fun s hinv => hC.agreeAt_tryFused h hinv fun hl => absurd hl hstrict)
      fun fused => .ite (keeps_pure _) ?_
    exact hC.agree_count.bind fun _ => (agree_genericRun h _ _ _ _).bind fun _ => keeps_pure _
  · exact (agree_genericRun h _ _ _ _).bind fun _ => keeps_pure _

theorem agree_onlyIf {α : Type} (hlenient : C.lenient) {p : Session → Bool} {x y : SessionM α}
    (h : ∀ s, C.inv s → p s = true → C.AgreeAt s x y) : C.Agree x (SessionM.onlyIf p y) := by
  intro s hinv
  cases hp : p s with
  | true =>
    have hrun : SessionM.onlyIf p y s = y s := by simp only [SessionM.onlyIf, hp, if_true]
    obtain ⟨hsame, hrel, hraises⟩ := h s hinv hp
    exact ⟨by rwa [hrun], by rwa [hrun], by rwa [hrun]⟩
  | false =>
    have hrun : SessionM.onlyIf p y s = (.error .exhausted, s) := by
      simp only [SessionM.onlyIf, hp, Bool.false_eq_true, if_false]
    exact .of_exhausted hinv hlenient hrun (C.refl s)

theorem agree_runLoopAlone (hC : C.WritesLoops) (hlenient : C.lenient) (h : C.AgreeAll ev₁ ev₂) :
    C.Agree (ev₁.runLoop call env var sequence body)
      (ev₂.runLoopAlone call env var sequence body) := by
  -- each guard of the second run is what its counterpart in the first one needs to be alone
  refine keeps_get.bind fun s => .ite ?_ ?_
  · refine Agree.bind (agree_onlyIf hlenient fun s hinv halone =>
      hC.agreeAt_ensureAnalyzed h hinv fun _ => halone) fun _ => ?_
    refine Agree.bind (agree_onlyIf hlenient fun s hinv halone =>
      hC.agreeAt_tryFused h hinv fun _ => halone) fun fused => .ite (keeps_pure _) ?_
    exact hC.agree_count.bind fun _ => (agree_genericRun h _ _ _ _).bind fun _ => keeps_pure _
  · exact (agree_genericRun h _ _ _ _).bind fun _ => keeps_pure _

/-- A lenient contract is kept by the evaluator that gives up, and where that one does not give up,
    the evaluator of the same fuel does the same. -/
theorem agree_loneEvaluator (hC : C.WritesLoops) (hlenient : C.lenient) (fuel : Nat) :
    C.AgreeAll (evaluator fuel) (loneEvaluator fuel) := by
  induction fuel with
  | zero => exact ⟨fun _ => keeps_exhausted, fun _ => C.gives_evaluator⟩
  | succ fuel ih =>
    refine ⟨fun task => ?_, fun _ => C.gives_evaluator⟩
    cases task with
    -- the two evaluators differ in how they run a loop only
    | evaluate expr env => exact agree_evaluateExpr ih expr env
    | apply function call args env extra => exact agree_applyValue ih function call args env extra
    | loop call env var sequence body => exact hC.agree_runLoopAlone hlenient ih

end WritesLoops

end Contract

end CallByNeed
