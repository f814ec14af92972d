import CallByNeed.Proofs.Contract.LoopRecord
import CallByNeed.Proofs.Termination.Loops

/-!
# Wary evaluators

Only invocations of closures are counted, and there is a limit to them.  Whatever
else is handed on in the same invocation uses something up, with two exceptions:
an operator whose method is a special form or an operator begins again where it
was, and a promise that was made since the invocation began may make another one
when it is forced.  Evaluators that refuse both come to an end with every task
(`ends_waryEvaluator`).  To refuse a task by running out of fuel there tells
whether one was refused: if not, the plain evaluator does the same
(`agreeAll_evaluator_wary`).
-/

namespace CallByNeed

open Session

namespace Evaluator

/-- What an invocation is refused with. -/
def cutOff : SessionM Value := do SessionM.fail (.stackOverflow (← get).depth)

/-- Hand on the tasks of an evaluation that began at this depth, except those that could be handed
    on for ever.  In the same invocation an operator is no method of an operator, and there is no
    task while a promise is evaluated that is younger than the `bound` oldest.  In a further
    invocation all the promises that it finds are old. -/
def refusing (refusal : SessionM Value) (ev : (bound : Nat) → Evaluator) (depth bound : Nat) :
    Evaluator := fun task s =>
  if depth < s.depth then ev s.promises.cells.size task s
  else if task.redispatches || s.promises.marksBeyond bound then refusal s
  else ev bound task s

end Evaluator

/-- The evaluator that hands on tasks at most `fuel` times inside each other and refuses those that
    could be handed on for ever. -/
def waryEvaluator (refusal : SessionM Value) : (fuel bound : Nat) → Evaluator
  | 0, _, _ => throw .exhausted
  | fuel + 1, bound, task => fun s =>
    (Evaluator.refusing refusal (waryEvaluator refusal fuel) s.depth bound).step task s

namespace Evaluator

variable {b : Budget} {s : Session} {task : Task}

/-- A task in the same invocation comes to an end if it does so unless it is refused. -/
theorem ends_refusing (hs : s.Safe) (hdepth : s.depth = b.depth)
    (h : task.redispatches = false → s.promises.marksBeyond b.bound = false →
      EndsAt s (fun n => waryEvaluator cutOff n b.bound task) Admits) :
    EndsAt s (fun n => refusing cutOff (waryEvaluator cutOff n) b.depth b.bound task) Admits := by
  have hsame : ¬ b.depth < s.depth := by omega
  by_cases hrefused : (task.redispatches || s.promises.marksBeyond b.bound) = true
  · refine .of_error (e := .failure (.stackOverflow s.depth)) ⟨0, fun n _ => ?_⟩ (.refl hs) rfl
      nofun
    simp only [refusing, if_neg hsame, if_pos hrefused]
    rfl
  · obtain ⟨hfirst, hsecond⟩ := Bool.or_eq_false_iff.1 (Bool.eq_false_of_not_eq_true hrefused)
    refine (h hfirst hsecond).congr fun n => ?_
    simp only [refusing, if_neg hsame, if_neg hrefused]

/-- What is handed on has a smaller budget, unless it is refused. -/
theorem endsBelow_refusing
    (ih : ∀ b' : Budget, b'.Less b → ∀ (task : Task) {s : Session}, s.Meets b' →
      s.AdmitsTask task → s.rank task.env ≤ b'.rank → task.weight ≤ b'.weight →
      EndsAt s (fun n => waryEvaluator cutOff n b'.bound task) Admits) :
    EndsBelow (fun n => refusing cutOff (waryEvaluator cutOff n) b.depth b.bound) b := by
  constructor
  case forced =>
    intro s id expr env hs hid hp
    have hpromise := admits_promise.1 hid _ hp
    have hmark := hs.safe.onward_mark id true
    refine ends_refusing hmark.safe hs.depth fun _ hold => ?_
    -- the promise is an old one, and it is idle no more
    have hindex := PromiseStore.lt_of_marksBeyond hold
      (PromiseStore.get?_update_self (Promise.mark true) hp)
    have hidle := (PromiseStore.idleBelow_mark_lt hp hindex).trans_le hs.idle
    let b' : Budget :=
      { b with
        idle := (s.mark id true).promises.idleBelow b.bound
        rank := (s.mark id true).rank env
        weight := 2 * sizeOf expr }
    have hbound : b.bound ≤ (s.mark id true).promises.cells.size := by
      simpa [Session.mark, PromiseStore.update] using hs.bound
    exact ih b' (.right _ (.left _ _ hidle)) (.evaluate expr env)
      ⟨hs.founded.mark id true, hs.depth, hs.maxDepth, hbound, Nat.le_refl _⟩
      ⟨hmark.admits hpromise.expr, hmark.live (hpromise.env rfl)⟩ (Nat.le_refl _) (Nat.le_refl _)
  case body =>
    intro s expr env hs hdepth hroom hmax hexpr henv
    let b' : Budget :=
      ⟨s.depth, b.maxDepth, s.promises.cells.size, s.promises.idleBelow s.promises.cells.size,
        s.rank env, 2 * sizeOf expr⟩
    -- further in there is less room on the stack, and the promises so far are old ones
    have hless : b.maxDepth - s.depth < b.maxDepth - b.depth := by omega
    refine (ih b' (.left _ _ hless) (.evaluate expr env)
      ⟨hs, rfl, hmax, Nat.le_refl _, Nat.le_refl _⟩ ⟨hexpr, henv⟩ (Nat.le_refl _)
      (Nat.le_refl _)).congr fun n => ?_
    have hdeeper : b.depth < s.depth := by omega
    simp only [Evaluator.evaluate, refusing, if_pos hdeeper, b']
  case outward =>
    intro task s hs htask hrank
    refine ends_refusing hs.safe hs.depth fun _ _ => ?_
    -- the task may be larger, but fewer callers are left
    let b' : Budget := { b with rank := s.rank task.env, weight := task.weight }
    exact ih b' (.right _ (.right _ (.left _ _ hrank))) task
      ⟨hs.founded, hs.depth, hs.maxDepth, hs.bound, hs.idle⟩ htask (Nat.le_refl _) (Nat.le_refl _)
  case lighter =>
    intro task s hs htask hrank hweight
    refine ends_refusing hs.safe hs.depth fun hfresh _ => ?_
    have hless : task.weight < b.weight := hweight.resolve_left (by simp [hfresh])
    let b' : Budget := { b with weight := task.weight }
    exact ih b' (.right _ (.right _ (.right _ hless))) task
      ⟨hs.founded, hs.depth, hs.maxDepth, hs.bound, hs.idle⟩ htask hrank (Nat.le_refl _)

/-- The wary evaluators come to an end with every task, by induction on its budget. -/
theorem ends_waryEvaluator (b : Budget) {s : Session} {task : Task} (hs : s.Meets b)
    (htask : s.AdmitsTask task) (hrank : s.rank task.env ≤ b.rank)
    (hweight : task.weight ≤ b.weight) :
    EndsAt s (fun n => waryEvaluator cutOff n b.bound task) Admits := by
  induction b using Budget.wellFounded_less.induction generalizing s task with
  | _ b ih =>
    have hbelow := endsBelow_refusing fun b' hless _ _ => ih b' hless
    refine EndsAt.of_succ ((ends_step hbelow hs htask hrank hweight).congr fun n => ?_)
    simp only [waryEvaluator, hs.depth]

/-! ## What the refusals change -/

section

open Contract

/-- Both evaluators refuse the same tasks. -/
theorem agreeAll_refusing (refusal : SessionM Value) {ev₁ ev₂ : (bound : Nat) → Evaluator}
    (h : ∀ bound, untilExhausted.AgreeAll (ev₁ bound) (ev₂ bound)) (depth bound : Nat) :
    untilExhausted.AgreeAll (refusing refusal ev₁ depth bound)
      (refusing (throw .exhausted) ev₂ depth bound) := by
  refine .of_until fun task s => ?_
  simp only [refusing]
  split
  · exact (h _ task).until s
  · split
    · exact .inr rfl
    · exact (h _ task).until s

/-- Where nothing is refused, it does not matter how it would be. -/
theorem agreeAll_waryEvaluator (refusal : SessionM Value) (more fuel bound : Nat) :
    untilExhausted.AgreeAll (waryEvaluator refusal (fuel + more) bound)
      (waryEvaluator (throw .exhausted) fuel bound) := by
  induction fuel generalizing bound with
  | zero => exact .of_until fun _ _ => .inr rfl
  | succ fuel ih =>
    refine .of_until fun task s => ?_
    rw [Nat.succ_add]
    have hinner := agreeAll_refusing refusal ih s.depth bound
    exact (untilExhausted_loopBlind.closed.agree_step hinner task).until s

/-- Until it runs out of fuel, an evaluator does the same as one that has more. -/
theorem agreeAll_evaluator (more fuel : Nat) :
    untilExhausted.AgreeAll (evaluator (fuel + more)) (evaluator fuel) := by
  induction fuel with
  | zero => exact .of_until fun _ _ => .inr rfl
  | succ fuel ih =>
    rw [Nat.succ_add]
    exact ⟨untilExhausted_loopBlind.closed.agree_step ih, fun _ _ => trivial⟩

/-- Where nothing is refused, the plain evaluator does the same as the wary one. -/
theorem agreeAll_evaluator_wary (more fuel bound : Nat) :
    untilExhausted.AgreeAll (evaluator (fuel + more))
      (waryEvaluator (throw .exhausted) fuel bound) := by
  induction fuel generalizing bound with
  | zero => exact .of_until fun _ _ => .inr rfl
  | succ fuel ih =>
    refine .of_until fun task s => ?_
    rw [Nat.succ_add]
    have hinner : untilExhausted.AgreeAll (evaluator (fuel + more))
        (refusing (throw .exhausted) (waryEvaluator (throw .exhausted) fuel) s.depth bound) := by
      refine .of_until fun task t => ?_
      simp only [refusing]
      split
      · exact (ih _ task).until t
      · split
        · exact .inr rfl
        · exact (ih _ task).until t
    exact (untilExhausted_loopBlind.closed.agree_step hinner task).until s

end

end Evaluator

end CallByNeed
