import CallByNeed.Proofs.FusedRun

/-!
# Analyzing a loop and giving it up

Analyzing a loop and trying it on whole vectors look up the functions that its
body calls, before the loop does anything.  That goes unnoticed if each of them
resolves without evaluation: the generic run that follows a trial then begins in
the session in which the loop was met, but for the record of loops.  Otherwise a
promise is forced, or an error is dropped (`trial_unnoticed`).
-/

namespace CallByNeed

/-- Every one of the names can be resolved as seen from `env` without evaluation. -/
def Session.ResolvesQuietly (s : Session) (env : EnvId) (names : List Symbol) : Prop :=
  ∀ name ∈ names, (s.resolve? env name).isSome

/-- The loop is what some analysis of the body found, in whatever session and environment. -/
def Accumulation.FoundIn (loop : Accumulation) (body : Value) : Prop :=
  ∃ fuel env var s t, (evaluator fuel).analyze env var body s = (.ok (some loop), t)

theorem Accumulation.FoundIn.guard_subset {loop : Accumulation} {body : Value}
    (h : loop.FoundIn body) : loop.guard.map (·.name) ⊆ body.calledNames := by
  obtain ⟨fuel, env, var, s, t, hrun⟩ := h
  intro name hname
  obtain ⟨g, hg, rfl⟩ := List.mem_map.1 hname
  exact Evaluator.guard_of_analyze hrun g hg

namespace Session

variable {s : Session} {env : EnvId} {names : List Symbol}

/-- What is recorded about the loop instance of a call, if it may be run on whole vectors, was found
    in the body. -/
def Records (s : Session) (call : Call) (body : Value) : Prop :=
  ∀ loop, (s.loops.status? call).bind LoopStatus.accumulation? = some loop → loop.FoundIn body

theorem ResolvesQuietly.looksQuietly (h : s.ResolvesQuietly env names) (ev : Evaluator) :
    ev.LooksQuietly env names False s := by
  intro name hname
  obtain ⟨found, hfound⟩ := Option.isSome_iff_exists.1 (h name hname)
  exact .inl ⟨some found, SessionM.attempt_run_ok (ev.function?_run_quiet hfound)⟩

theorem ResolvesQuietly.mono {fewer : List Symbol} (h : s.ResolvesQuietly env names)
    (hsub : fewer ⊆ names) : s.ResolvesQuietly env fewer := fun name hname => h name (hsub hname)

theorem ResolvesQuietly.congr {t : Session} (h : s.ResolvesQuietly env names)
    (hheap : t.heap = s.heap) (hpromises : t.promises = s.promises) :
    t.ResolvesQuietly env names := fun name hname => by
  rw [resolve?_congr hheap hpromises]
  exact h name hname

theorem Fits.resolvesQuietly {loop : Accumulation} {var : Symbol} {body : Value}
    (h : s.Fits env loop.guard) (hrenders : loop.Renders var body) :
    s.ResolvesQuietly env body.calledNames := by
  intro name hname
  obtain ⟨op, hop⟩ := Option.isSome_iff_exists.1 (hrenders.lowers.reads hname)
  obtain ⟨g, hfind, -⟩ := Option.bind_eq_some_iff.1 hop
  have hg : g.name = name := by simpa using List.find?_some hfind
  rw [← hg, h g (List.mem_of_find?_eq_some hfind)]
  rfl

end Session

namespace Evaluator

variable {fuel : Nat} {s t : Session} {env : EnvId} {var : Symbol} {sequence body : Value}
  {call : Call} {loop : Accumulation}

/-- An analysis that finds a loop forces no promise exactly if every name that the body calls
    resolves without evaluation. -/
theorem keepsPromises_of_analyze_iff
    (h : (evaluator fuel).analyze env var body s = (.ok (some loop), t)) :
    t.KeepsPromises s ↔ s.ResolvesQuietly env body.calledNames := by
  constructor
  · intro hback
    -- a loop that was found has every called name in its guard, and the guard fits the session
    obtain ⟨-, hfits, hrenders⟩ := renders_of_analyze h hback
    exact hfits.resolvesQuietly hrenders
  · intro hquiet
    rcases analyze_run_quiet var (hquiet.looksQuietly (evaluator fuel)) with
      ⟨found, hrun⟩ | ⟨hstuck, -⟩
    · rw [hrun] at h
      cases h
      exact .of_promises rfl
    · exact hstuck.elim

variable (fuel var sequence)

theorem analyze_run_of_resolvesQuietly (h : s.ResolvesQuietly env body.calledNames) :
    ∃ found, (evaluator fuel).analyze env var body s = (.ok found, s) :=
  (analyze_run_quiet var (h.looksQuietly (evaluator fuel))).resolve_right fun h => h.1

/-- A fused run of a loop that was found in the body gives up without a trace, or does not give
    up. -/
theorem fusedRun_run_of_resolvesQuietly (h : s.ResolvesQuietly env body.calledNames)
    (hfound : loop.FoundIn body) :
    (∃ b, ((evaluator fuel).fusedRun loop env var sequence).run s = (.ok (.error b), s)) ∨
      ∃ t, ((evaluator fuel).fusedRun loop env var sequence).run s = (.ok (.ok ()), t) := by
  have hguard := h.mono hfound.guard_subset
  rcases fusedRun_run var sequence (hguard.looksQuietly (evaluator fuel)) with
    hbail | ⟨_, t, hrun, -⟩ | ⟨hstuck, -⟩
  · exact .inl hbail
  · exact .inr ⟨t, hrun⟩
  · exact hstuck.elim

/-- The decision about a new instance changes the record of loops only. -/
theorem ensureAnalyzed_run_of_resolvesQuietly (h : s.ResolvesQuietly env body.calledNames)
    (hrecord : s.Records call body) :
    ∃ loops stats, (evaluator fuel).ensureAnalyzed call env var body s =
        (.ok (), { s with loops, stats }) ∧
      ({ s with loops, stats } : Session).Records call body := by
  have hcount : s.countAnalysis.ResolvesQuietly env body.calledNames := h.congr rfl rfl
  exact (ensureAnalyzed_run_quiet var (hcount.looksQuietly (evaluator fuel)) hrecord
    fun loop hrun => ⟨fuel, env, var, _, _, hrun⟩).resolve_right fun h => h.1

/-- A trial that ends without a fused run changes the record of loops only. -/
theorem tryFused_run_of_resolvesQuietly (h : s.ResolvesQuietly env body.calledNames)
    (hrecord : s.Records call body) :
    (∃ t, (evaluator fuel).tryFused call env var sequence s = (.ok true, t)) ∨
      ∃ loops stats, (evaluator fuel).tryFused call env var sequence s =
        (.ok false, { s with loops, stats }) := by
  have hguard (loop : Accumulation) (hloop : _ = some loop) :=
    (h.mono (hrecord loop hloop).guard_subset).looksQuietly (evaluator fuel)
  rcases tryFused_run var sequence hguard with hunchanged | ⟨_, _, -, -, hrun⟩ | ⟨hstuck, -⟩
  · exact .inr hunchanged
  · exact .inl ⟨_, hrun⟩
  · exact hstuck.elim

/-- A loop is run on whole vectors, or it is run generically from the session in which it was met,
    but for the record of loops. -/
theorem runLoop_run_of_resolvesQuietly (hcompile : s.options.compileLoops = true)
    (h : s.ResolvesQuietly env body.calledNames) (hrecord : s.Records call body) :
    (∃ t, (do
        (evaluator fuel).ensureAnalyzed call env var body
        (evaluator fuel).tryFused call env var sequence) s = (.ok true, t)) ∨
      ∃ loops stats, (evaluator fuel).runLoop call env var sequence body s =
        (do
          (evaluator fuel).genericRun env var sequence body
          return Value.null) { s with loops, stats } := by
  obtain ⟨loops, stats, hanalyzed, hrecord⟩ :=
    ensureAnalyzed_run_of_resolvesQuietly fuel var h hrecord
  have hsame : ({ s with loops, stats } : Session).ResolvesQuietly env body.calledNames :=
    h.congr rfl rfl
  rcases tryFused_run_of_resolvesQuietly fuel var sequence hsame
      hrecord with ⟨t, htried⟩ | ⟨loops', stats', htried⟩
  · refine .inl ⟨t, ?_⟩
    rw [SessionM.bind_run_ok hanalyzed]
    exact htried
  · refine .inr ⟨loops', { stats' with genericRuns := stats'.genericRuns + 1 }, ?_⟩
    rw [runLoop, SessionM.get_bind_run, if_pos hcompile, SessionM.bind_run_ok hanalyzed,
      SessionM.bind_run_ok htried]
    rfl

end Evaluator

/-- Analyzing a loop and giving it up on whole vectors go unnoticed exactly as far as the names that
    the loop body calls resolve without evaluation.  A name does so if and only if looking it up
    changes nothing and raises nothing, and an analysis that finds a loop forces no promise if and
    only if all of them do.  Then every analysis of the body and every fused run that is given up
    leave the session as it is, and a generic run that follows begins in the session in which the
    loop was met, but for the record of loops. -/
theorem trial_unnoticed (fuel : Nat) (s : Session) (env : EnvId) (var : Symbol) (body : Value) :
    (∀ name found, (evaluator fuel).function? env name s = (.ok found, s) ↔
      s.resolve? env name = some found) ∧
    (∀ loop t, (evaluator fuel).analyze env var body s = (.ok (some loop), t) →
      (t.KeepsPromises s ↔ s.ResolvesQuietly env body.calledNames)) ∧
    (s.ResolvesQuietly env body.calledNames →
      (∃ found, (evaluator fuel).analyze env var body s = (.ok found, s)) ∧
      (∀ loop sequence, loop.FoundIn body →
        (∃ b, ((evaluator fuel).fusedRun loop env var sequence).run s = (.ok (.error b), s)) ∨
          ∃ t, ((evaluator fuel).fusedRun loop env var sequence).run s = (.ok (.ok ()), t)) ∧
      ∀ call sequence, s.options.compileLoops = true → s.Records call body →
        (∃ t, (do
            (evaluator fuel).ensureAnalyzed call env var body
            (evaluator fuel).tryFused call env var sequence) s = (.ok true, t)) ∨
          ∃ loops stats, (evaluator fuel).runLoop call env var sequence body s =
            (do
              (evaluator fuel).genericRun env var sequence body
              return Value.null) { s with loops, stats }) :=
  ⟨fun _ _ => Evaluator.function?_run_iff,
    fun _ _ hrun => Evaluator.keepsPromises_of_analyze_iff hrun,
    fun hquiet => ⟨Evaluator.analyze_run_of_resolvesQuietly _ _ hquiet,
      fun _ _ hfound => Evaluator.fusedRun_run_of_resolvesQuietly _ _ _ hquiet hfound,
      fun _ _ hcompile hrecord =>
        Evaluator.runLoop_run_of_resolvesQuietly _ _ _ hcompile hquiet hrecord⟩⟩

/-- The analysis of `total <- total + i` in a new session leaves it as it is. -/
theorem trial_unnoticed_sum :
    let s := Session.initial {} .empty
    let call (name : String) (args : List Value) : Value :=
      .call ⟨⟨0⟩, .symbol ⟨name⟩, args.map Arg.untagged⟩
    let total : Value := .symbol ⟨"total"⟩
    let body := call "<-" [total, call "+" [total, .symbol ⟨"i"⟩]]
    s.ResolvesQuietly s.globalEnv body.calledNames ∧
      ∃ found, (evaluator 0).analyze s.globalEnv ⟨"i"⟩ body s = (.ok found, s) := by
  intro s call total body
  have hquiet : s.ResolvesQuietly s.globalEnv body.calledNames := by
    unfold Session.ResolvesQuietly
    decide +kernel
  obtain ⟨-, -, hunnoticed⟩ := trial_unnoticed 0 s s.globalEnv ⟨"i"⟩ body
  exact ⟨hquiet, (hunnoticed hquiet).1⟩

end CallByNeed
