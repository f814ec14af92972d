import CallByNeed.Proofs.Contract.LoopRecord
import CallByNeed.Proofs.LoopTable
import CallByNeed.Proofs.Reachable

/-!
# The life of a loop instance

An instance is entered by its analysis, and then only advances: from candidate
to fused to generic.  That holds from the beginning of every evaluation to its
end (`Session.LoopsAdvance`), whatever runs inside it.

The counters are exact as long as no decision about an instance is overtaken by
another run of the same loop (`Session.LoopsAccounted`).  An analysis that is
overtaken is counted, but enters no instance of its own, and from then on the
counters never fit again (`ensureAnalyzed_overtaken`).
-/

namespace CallByNeed

namespace Session

variable {s t u : Session} {call : Call} {loop : Accumulation}

/-! ## What holds of every evaluation -/

/-- Every instance only advances, and the table grows at most as often as a loop is analyzed. -/
structure LoopsAdvance (s t : Session) : Prop where
  phases : s.loops.Advances t.loops
  size : t.loops.size + s.stats.analyzed ≤ s.loops.size + t.stats.analyzed

theorem LoopsAdvance.of_same (hloops : t.loops = s.loops) (hstats : t.stats = s.stats) :
    LoopsAdvance s t :=
  ⟨hloops ▸ .refl _, Nat.le_of_eq (by rw [hloops, hstats])⟩

theorem LoopsAdvance.trans (h₁ : LoopsAdvance s t) (h₂ : LoopsAdvance t u) : LoopsAdvance s u := by
  refine ⟨h₁.phases.trans h₂.phases, ?_⟩
  have hsize₁ := h₁.size
  have hsize₂ := h₂.size
  omega

theorem phase?_of_fit (h : (s.loops.status? call).bind LoopStatus.accumulation? = some loop) :
    ∃ status, s.loops.status? call = some status ∧ status.phase.rank ≤ LoopPhase.fused.rank := by
  obtain ⟨status, hstatus, hloop⟩ := Option.bind_eq_some_iff.1 h
  exact ⟨status, hstatus, LoopStatus.rank_le_of_accumulation? hloop⟩

theorem status?_of_advances {old : LoopStatus} (h : s.loops.Advances t.loops)
    (hold : s.loops.status? call = some old) (halone : t.loops.phase? call ≠ some .generic) :
    ∃ status, t.loops.status? call = some status ∧ status.phase ≠ .generic := by
  obtain ⟨q, hq, -⟩ := h call old.phase (by rw [LoopTable.phase?, hold]; rfl)
  obtain ⟨status, hstatus, rfl⟩ := Option.map_eq_some_iff.1 hq
  exact ⟨status, hstatus, fun he => halone (by rw [hq, he])⟩

/-! ## What holds if no decision is overtaken -/

/-- Every instance only advances, each analysis enters one of its own, and each bailout makes one
    generic. -/
structure LoopsAccounted (s t : Session) : Prop where
  phases : s.loops.Advances t.loops
  nodup : s.loops.identities.Nodup → t.loops.identities.Nodup
  analyzed : t.loops.size + s.stats.analyzed = s.loops.size + t.stats.analyzed
  bailouts : t.stats.bailouts + s.loops.genericCount ≤ s.stats.bailouts + t.loops.genericCount

theorem LoopsAccounted.of_same (hloops : t.loops = s.loops) (hstats : t.stats = s.stats) :
    LoopsAccounted s t := by
  refine ⟨hloops ▸ .refl _, fun h => hloops ▸ h, ?_, ?_⟩
  · rw [hloops, hstats]
  · exact Nat.le_of_eq (by rw [hloops, hstats])

theorem LoopsAccounted.trans (h₁ : LoopsAccounted s t) (h₂ : LoopsAccounted t u) :
    LoopsAccounted s u := by
  refine ⟨h₁.phases.trans h₂.phases, fun h => h₂.nodup (h₁.nodup h), ?_, ?_⟩
  · have hanalyzed₁ := h₁.analyzed
    have hanalyzed₂ := h₂.analyzed
    omega
  · have hbailouts₁ := h₁.bailouts
    have hbailouts₂ := h₂.bailouts
    omega

end Session

namespace Contract

/-- Loops advance, whatever is overtaken. -/
def loopsAdvance : Contract :=
  .ofLoops (fun _ => True) Session.LoopsAdvance False .of_same .trans fun _ _ => trivial

theorem loopsAdvance_writesLoops : loopsAdvance.WritesLoops where
  inv_count _ := trivial
  count _ := ⟨.refl _, Nat.le_refl _⟩
  raises _ _ := trivial
  interrupt _ _ h := by
    have hsize := h.size
    simp only [Session.countAnalysis] at hsize
    exact ⟨h.phases, by omega⟩
  enter status _ hnew h _ := by
    refine ⟨h.phases.insert status hnew, ?_⟩
    have hsize := h.size
    have hinsert := LoopTable.size_insert_le
    simp only [Session.countAnalysis] at hsize
    simp only [Session.enterLoop]
    refine Nat.le_trans (Nat.add_le_add_right (LoopTable.size_insert_le _ _ _) _) ?_
    omega
  fuse _ hfit h _ := by
    obtain ⟨old, hold, hrank⟩ := Session.phase?_of_fit hfit
    refine ⟨h.phases.set (by rw [LoopTable.phase?, hold]; rfl) hrank, ?_⟩
    have hsize := h.size
    simpa [Session.fuseLoop] using hsize
  bail _ hfit h _ := by
    obtain ⟨old, hold, hrank⟩ := Session.phase?_of_fit hfit
    refine ⟨h.phases.set (by rw [LoopTable.phase?, hold]; rfl)
      (Nat.le_trans hrank (Nat.le_succ 1)), ?_⟩
    have hsize := h.size
    simpa [Session.bailLoop] using hsize

/-- The accounts of loops are kept where no decision is overtaken. -/
def loopsAccounted : Contract :=
  .ofLoops (fun s => s.loops.identities.Nodup) Session.LoopsAccounted True .of_same .trans
    fun hinv h => h.nodup hinv

theorem loopsAccounted_writesLoops : loopsAccounted.WritesLoops where
  inv_count hinv := hinv
  count _ := ⟨.refl _, id, rfl, Nat.le_refl _⟩
  raises _ _ := trivial
  interrupt hstrict := absurd trivial hstrict
  enter {s t call} status hinv hnew h halone := by
    -- nothing overtook the analysis, so the instance is still new when it is entered
    have hfresh := halone trivial
    refine ⟨h.phases.insert status hnew, fun hnodup => ?_, ?_, ?_⟩
    · exact LoopTable.nodup_insert status (h.nodup hnodup) hfresh
    · have hanalyzed := h.analyzed
      have hsize := LoopTable.size_insert_of_new status hfresh
      simp only [Session.countAnalysis] at hanalyzed
      simp only [Session.enterLoop]
      omega
    · have hbailouts := h.bailouts
      have hgeneric := LoopTable.genericCount_insert_of_new status hfresh
      simp only [Session.countAnalysis] at hbailouts
      simp only [Session.enterLoop]
      omega
  fuse {s t call loop} hinv hfit h halone := by
    obtain ⟨old, hold, hrank⟩ := Session.phase?_of_fit hfit
    obtain ⟨now, hnow, hne⟩ := Session.status?_of_advances h.phases hold (halone trivial)
    refine ⟨h.phases.set (by rw [LoopTable.phase?, hold]; rfl) hrank, fun hnodup => ?_, ?_, ?_⟩
    · rw [Session.fuseLoop, LoopTable.identities_set]
      exact h.nodup hnodup
    · have hanalyzed := h.analyzed
      simpa [Session.fuseLoop] using hanalyzed
    · have hbailouts := h.bailouts
      rw [Session.fuseLoop, LoopTable.genericCount_set (h.nodup hinv) hnow hne]
      exact hbailouts
  bail hinv hfit h halone := by
    obtain ⟨old, hold, hrank⟩ := Session.phase?_of_fit hfit
    obtain ⟨now, hnow, hne⟩ := Session.status?_of_advances h.phases hold (halone trivial)
    refine ⟨h.phases.set (by rw [LoopTable.phase?, hold]; rfl)
      (Nat.le_trans hrank (Nat.le_succ 1)), fun hnodup => ?_, ?_, ?_⟩
    · rw [Session.bailLoop, LoopTable.identities_set]
      exact h.nodup hnodup
    · have hanalyzed := h.analyzed
      simpa [Session.bailLoop] using hanalyzed
    · have hbailouts := h.bailouts
      rw [Session.bailLoop, LoopTable.genericCount_set (h.nodup hinv) hnow hne]
      simp only [LoopStatus.phase, if_true]
      omega

end Contract

namespace Session

/-! ## Whole runs -/

/-- A session that comes after another one by evaluations, and by what a host does in between. -/
inductive Later : Session → Session → Prop where
  | refl (s : Session) : Later s s
  | ran {s t : Session} (h : Later s t) (fuel : Nat) (task : Task) :
      Later s (evaluator fuel task t).2
  | host {s t u : Session} (h : Later s t) (hstep : t.HostStep u) (hstats : u.stats = t.stats) :
      Later s u

/-- A session that comes about from a new one by evaluations in which no decision about a loop is
    overtaken, and by what a host does in between. -/
inductive ReachedAlone (options : Options) (kernels : KernelTable) : (s : Session) → Prop where
  | initial : ReachedAlone options kernels (.initial options kernels)
  | ran {s : Session} (h : ReachedAlone options kernels s) (fuel : Nat) (task : Task)
      (halone : (loneEvaluator fuel task s).1 ≠ .error .exhausted) :
      ReachedAlone options kernels (evaluator fuel task s).2
  | host {s t : Session} (h : ReachedAlone options kernels s) (hstep : s.HostStep t)
      (hstats : t.stats = s.stats) : ReachedAlone options kernels t

variable {s t : Session}

theorem HostStep.loops (h : s.HostStep t) : t.loops = s.loops := by
  cases h with
  | move h => cases h <;> rfl
  | _ => rfl

theorem Later.loopsAdvance (h : s.Later t) : LoopsAdvance s t := by
  induction h with
  | refl => exact .of_same rfl rfl
  | ran _ fuel task ih =>
    have hclosed := Contract.loopsAdvance_writesLoops.closed id
    exact ih.trans (hclosed.agree_evaluator fuel task _ trivial).rel
  | host _ hstep hstats ih => exact ih.trans (.of_same hstep.loops hstats)

theorem ReachedAlone.loopsAccounted {options : Options} {kernels : KernelTable}
    (h : s.ReachedAlone options kernels) : LoopsAccounted (.initial options kernels) s := by
  induction h with
  | initial => exact .of_same rfl rfl
  | @ran s h fuel task halone ih =>
    have hnodup := ih.nodup List.nodup_nil
    have hagree :=
      Contract.loopsAccounted_writesLoops.agree_loneEvaluator trivial fuel task s hnodup
    -- the lone evaluator did not give up, so the evaluator of the same fuel did what it did
    rw [hagree.same.resolve_right fun h => halone h.2]
    exact ih.trans hagree.rel
  | host _ hstep hstats ih => exact ih.trans (.of_same hstep.loops hstats)

end Session

/-- An analysis that is overtaken is counted but enters no instance of its own. -/
theorem Evaluator.ensureAnalyzed_overtaken (fuel : Nat) {s t : Session} {call : Call} {env : EnvId}
    {var : Symbol} {body : Value} {found : Option Accumulation}
    (hnew : s.loops.contains call = false)
    (hrun : (evaluator fuel).analyze env var body s.countAnalysis = (.ok found, t))
    (hovertaken : t.loops.contains call = true) :
    ∃ u, (evaluator fuel).ensureAnalyzed call env var body s = (.ok (), u) ∧
      u.loops.size + s.stats.analyzed < s.loops.size + u.stats.analyzed := by
  have hclosed := Contract.loopsAdvance_writesLoops.closed id
  have hrel := (Contract.agree_analyze (hclosed.agree_evaluator fuel) env var body
    s.countAnalysis trivial).rel
  rw [hrun] at hrel
  have hsize := hrel.size
  -- the analysis was counted, but what it enters takes the place of an instance
  have hinsert := LoopTable.size_insert_of_contains (LoopStatus.ofAnalysis found) hovertaken
  refine ⟨t.enterLoop call (.ofAnalysis found), ?_, ?_⟩
  · rw [ensureAnalyzed_run_new _ env var body hnew, hrun]
  · simp only [Session.countAnalysis] at hsize
    simp only [Session.enterLoop]
    omega

theorem Evaluator.tryFused_of_generic (ev : Evaluator) {s : Session} {call : Call} (env : EnvId)
    (var : Symbol) (sequence : Value) (h : s.loops.phase? call = some .generic) :
    ev.tryFused call env var sequence s = (.ok false, s) := by
  obtain ⟨status, hstatus, hphase⟩ := Option.map_eq_some_iff.1 h
  refine ev.tryFused_run_unfit env var sequence ?_
  rw [hstatus]
  cases status with
  | generic => rfl
  | candidate _ => cases hphase
  | fused _ => cases hphase

namespace Session

/-- Over any run, an instance only advances, and one that is generic stays so and is never tried
    again.  If no decision is overtaken, each instance was analyzed exactly once, and there are no
    more bailouts than generic instances.  An analysis that is overtaken is one too many, and
    nothing that comes later makes up for it. -/
theorem loop_life_cycle (options : Options) (kernels : KernelTable) :
    (∀ s t : Session, s.Later t → ∀ (call : Call) (p : LoopPhase), s.loops.phase? call = some p →
      ∃ q, t.loops.phase? call = some q ∧ p.rank ≤ q.rank ∧
        (p = .generic → q = .generic ∧ ∀ (ev : Evaluator) env var sequence,
          ev.tryFused call env var sequence t = (.ok false, t))) ∧
    (∀ s : Session, s.ReachedAlone options kernels →
      s.stats.analyzed = s.loops.size ∧ s.loops.identities.Nodup ∧
        s.stats.bailouts ≤ s.loops.genericCount) ∧
    (∀ s t : Session, s.Later t →
      t.loops.size + s.stats.analyzed ≤ s.loops.size + t.stats.analyzed) ∧
    ∀ (fuel : Nat) (s t : Session) (call : Call) (env : EnvId) (var : Symbol) (body : Value)
      (found : Option Accumulation), s.loops.contains call = false →
      (evaluator fuel).analyze env var body s.countAnalysis = (.ok found, t) →
      t.loops.contains call = true →
      ∃ u, (evaluator fuel).ensureAnalyzed call env var body s = (.ok (), u) ∧
        u.loops.size + s.stats.analyzed < s.loops.size + u.stats.analyzed := by
  refine ⟨fun s t h call p hp => ?_, fun s h => ?_, fun s t h => h.loopsAdvance.size,
    fun fuel s t call env var body found hnew hrun hovertaken =>
      Evaluator.ensureAnalyzed_overtaken fuel hnew hrun hovertaken⟩
  · obtain ⟨q, hq, hrank⟩ := h.loopsAdvance.phases call p hp
    refine ⟨q, hq, hrank, fun hgeneric => ?_⟩
    subst hgeneric
    obtain rfl := LoopPhase.eq_generic_of_rank hrank
    exact ⟨rfl, fun ev env var sequence => ev.tryFused_of_generic env var sequence hq⟩
  · obtain ⟨-, hnodup, hanalyzed, hbailouts⟩ := h.loopsAccounted
    have hsize : (Session.initial options kernels).loops.size = 0 := rfl
    have hcount : (Session.initial options kernels).loops.genericCount = 0 := rfl
    have hstats : (Session.initial options kernels).stats = {} := rfl
    rw [hstats] at hanalyzed hbailouts
    refine ⟨?_, hnodup List.nodup_nil, ?_⟩ <;> simp only at hanalyzed hbailouts <;> omega

/-- A loop over NULL whose body is NULL: its only instance was analyzed once and is generic. -/
theorem loop_life_cycle_null :
    let s := Session.initial {} .empty
    let call : Call := ⟨⟨0⟩, .null, []⟩
    let task := Task.loop call s.globalEnv ⟨"i"⟩ .null .null
    let t := (evaluator 1 task s).2
    t.ReachedAlone {} .empty ∧ s.Later t ∧ t.loops.phase? call = some .generic ∧
      t.stats.analyzed = t.loops.size ∧
      (evaluator 1).tryFused call s.globalEnv ⟨"i"⟩ .null t = (.ok false, t) := by
  intro s call task t
  have halone : t.ReachedAlone {} .empty := .ran .initial 1 task nofun
  have hphase : t.loops.phase? call = some .generic := rfl
  obtain ⟨hadvances, haccounts, -, -⟩ := loop_life_cycle {} .empty
  obtain ⟨_, _, _, hgeneric⟩ := hadvances t t (.refl t) call .generic hphase
  exact ⟨halone, .ran (.refl s) 1 task, hphase, (haccounts t halone).1,
    (hgeneric rfl).2 (evaluator 1) _ _ _⟩

end Session

end CallByNeed
