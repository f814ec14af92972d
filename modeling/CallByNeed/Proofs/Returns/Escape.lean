import CallByNeed.Proofs.Returns.Active
import CallByNeed.Proofs.Returns.Relay

/-!
# No return escapes its invocation

A return is raised only while its invocation is active, and every task between
that invocation and the place where it is raised hands it on unchanged.  So it
arrives: an evaluation that begins with an empty stack never ends in a return,
and a return from an invocation that is over fails where it stands.

There is one exception.  A loop that may be run on whole vectors first resolves
the names of its body on trial, and takes any error or return that this ends with
for a sign that it should be run one iteration at a time.  The generic run that
follows hands returns on like every other task.
-/

namespace CallByNeed

open SessionM

namespace Evaluator

/-- The evaluator that runs out of fuel wherever the given one ends with the signal. -/
noncomputable def silenced (signal : Interrupt) (ev : Evaluator) : Evaluator := fun task s =>
  open Classical in
  if (ev task s).1 = .error signal then (.error .exhausted, (ev task s).2) else ev task s

theorem relays_silenced (signal : Interrupt) (ev : Evaluator) :
    Relays signal ev (ev.silenced signal) := by
  intro task s
  by_cases hsignal : (ev task s).1 = .error signal
  · right
    simp only [silenced, if_pos hsignal]
    exact ⟨hsignal, trivial⟩
  · left
    simp only [silenced, if_neg hsignal]

/-- In this session the action hands the signal on: it does not come to know of a task that ends
    with it, or ends with it as well. -/
def HandsOn {α : Type} (ev : Evaluator) (signal : Interrupt) (s : Session)
    (act : Evaluator → SessionM α) : Prop :=
  RelaysAt signal s (act ev) (act (ev.silenced signal))

end Evaluator

namespace SessionM

variable {s : Session}

theorem atTopLevel_run {act : SessionM Value}
    (h : ∀ target value, (act s).1 ≠ .error (.returning target value)) :
    atTopLevel act s = act s := by
  rcases hact : act s with ⟨(_ | ⟨target, value⟩ | _) | _, t⟩
  · simp only [atTopLevel, hact]
  · exact absurd (congrArg Prod.fst hact) (h target value)
  · simp only [atTopLevel, hact]
  · simp only [atTopLevel, hact]

/-- Once its value is known, a return is raised if its invocation is active, or else it fails. -/
theorem returnValue_run (ev : Evaluator) {call : Call} {env : EnvId} {value : Value} {t : Session}
    (harity : call.args.length ≤ 1) (h : ev.evaluateFirst call.args env s = (.ok value, t)) :
    ev.returnValue call env s =
      (.error (if (t.invocationOf? env).isSome then .returning env value
        else .failure .deadFrameReturn), t) := by
  have hcount : requireArity call .returnValue 0 1 = pure () := by
    have hfew : ¬ 1 < call.args.length := by omega
    simp [requireArity, hfew]
  simp only [Evaluator.returnValue, hcount, pure_bind_run]
  rw [bind_run_ok h, get_bind_run]
  split <;> rfl

end SessionM

variable {options : Options} {kernels : KernelTable} {s : Session}

theorem Session.Staffed.unique_invocation (h : s.Staffed) {i : Invocation} (hi : i ∈ s.stack) :
    ∃! j, j ∈ s.stack ∧ j.env = i.env := by
  refine ⟨i, ⟨hi, rfl⟩, fun j hj => ?_⟩
  exact List.inj_on_of_nodup_map h.nodup hj.1 hi hj.2

/-- What a return evaluates first leaves the stack as it was. -/
theorem Session.Reachable.stack_evaluateFirst (h : s.Reachable options kernels) (fuel : Nat)
    (args : ArgList) (env : EnvId) :
    ((evaluator fuel).evaluateFirst args env s).2.stack = s.stack := by
  cases args with
  | nil => rfl
  | cons arg _ => exact (h.returns_active fuel (.evaluate arg.value env)).1

open Evaluator in
/-- A return that ends an evaluation aims at the one invocation with its frame that was active
    before, so there is none if no invocation was, and the top level meets none.  On its way every
    task hands a return on unchanged, except that it ends the invocation it aims at, and that a loop
    drops it before its generic run, while names are resolved on trial; forcing a promise and
    generic runs hand it on as well.  And it is raised in the first place only if its invocation is
    active. -/
theorem Session.Reachable.returns_stay (h : s.Reachable options kernels) (fuel : Nat) :
    (∀ (entry : Entry) target value,
      (entry.run (evaluator fuel) s).1 = .error (.returning target value) →
        ∃! i, i ∈ s.stack ∧ i.env = target) ∧
    (s.stack = [] → ∀ expr env,
      atTopLevel ((evaluator fuel).evaluate expr env) s = (evaluator fuel).evaluate expr env s) ∧
    (∀ target value task,
      HandsOn (evaluator fuel) (.returning target value) s (fun ev => ev.step task) ∨
        Catches (evaluator fuel) target value ((evaluator fuel).step task s) ∨
        EndsOnTrial ((evaluator fuel).silenced (.returning target value)) task s) ∧
    (∀ target value id,
      HandsOn (evaluator fuel) (.returning target value) s (fun ev => ev.demand id)) ∧
    (∀ target value env var sequence body,
      HandsOn (evaluator fuel) (.returning target value) s
        (fun ev => ev.genericRun env var sequence body)) ∧
    ∀ (call : Call) env value t, call.args.length ≤ 1 →
      (evaluator fuel).evaluateFirst call.args env s = (.ok value, t) →
      (evaluator fuel).returnValue call env s =
        (.error (if (s.invocationOf? env).isSome then .returning env value
          else .failure .deadFrameReturn), t) := by
  have hactive (entry : Entry) (target : EnvId) (value : Value)
      (he : (entry.run (evaluator fuel) s).1 = .error (.returning target value)) :
      ∃! i, i ∈ s.stack ∧ i.env = target := by
    obtain ⟨i, hi, rfl⟩ := (h.returns_active fuel entry).2 target value he
    exact h.staffed.unique_invocation hi
  refine ⟨hactive, fun hempty expr env => ?_, fun target value task => ?_,
    fun target value id => ?_, fun target value env var sequence body => ?_,
    fun call env value t harity hfirst => ?_⟩
  · refine atTopLevel_run fun target value he => ?_
    obtain ⟨i, ⟨hi, -⟩, -⟩ := hactive (.evaluate expr env) target value he
    rw [hempty] at hi
    cases hi
  · exact relaysAt_step (relays_silenced _ _) task s
  · exact relays_demand (relays_silenced _ _) id s
  · exact relays_genericRun (relays_silenced _ _) env var sequence body s
  · have hstack : t.stack = s.stack := by
      have hkept := h.stack_evaluateFirst fuel call.args env
      rw [hfirst] at hkept
      exact hkept
    have hsame : t.invocationOf? env = s.invocationOf? env :=
      congrArg (List.find? fun i : Invocation => i.env == env) hstack
    rw [returnValue_run _ harity hfirst, hsame]

namespace Session

/-- A session in which a closure was just invoked at top level. -/
def invoked : Session :=
  let s := Session.initial {} .empty
  let (env, heap) := s.heap.allocate (some s.globalEnv)
  { s with heap }.enter
    ⟨env, s.globalEnv, ⟨⟨0⟩, [], .null, s.globalEnv⟩, ⟨⟨1⟩, .null, []⟩, []⟩

/-- The invocation hands on its body in the session that it made. -/
theorem reachable_invoked : invoked.Reachable {} .empty := by
  let s := Session.initial {} .empty
  let closure : Closure := ⟨⟨0⟩, [], .null, s.globalEnv⟩
  let task : Task := .apply (.closure closure) ⟨⟨1⟩, .null, []⟩ [] s.globalEnv []
  let body : Task := .evaluate .null ⟨2, 0⟩
  have hbody : Evaluator.Consults (fun ev => ev.step task) (evaluator 0) s body invoked := by
    classical
    let other : Evaluator := fun task t =>
      if (task, t) = (body, invoked) then (.ok .null, t) else evaluator 0 task t
    refine ⟨other, fun task t hne => if_neg hne, fun hsame => ?_⟩
    have hother : other body invoked = (.ok .null, invoked) := if_pos rfl
    have hvalue : (SessionM.catchReturn ⟨2, 0⟩ (other body) invoked).1 = .error .exhausted :=
      congrArg Prod.fst hsame
    simp only [SessionM.catchReturn, hother] at hvalue
    cases hvalue
  exact .during .initial 0 hbody

/-- Inside an invocation a return is raised, and it aims at that invocation and at no other one. -/
theorem Reachable.returns_stay_invoked :
    let call : Call := ⟨⟨2⟩, .builtin ⟨8⟩ (.special .returnValue), [.untagged .null]⟩
    invoked.Reachable {} .empty ∧
    ((evaluator 2).evaluate (.call call) ⟨2, 0⟩ invoked).1 = .error (.returning ⟨2, 0⟩ .null) ∧
    ∃! i, i ∈ invoked.stack ∧ i.env = ⟨2, 0⟩ := by
  intro call
  have hraised : ((evaluator 2).evaluate (.call call) ⟨2, 0⟩ invoked).1 =
      .error (.returning ⟨2, 0⟩ .null) := rfl
  exact ⟨reachable_invoked, hraised,
    (returns_stay reachable_invoked 2).1 (.evaluate (.call call) ⟨2, 0⟩) ⟨2, 0⟩ .null hraised⟩

end Session

end CallByNeed
