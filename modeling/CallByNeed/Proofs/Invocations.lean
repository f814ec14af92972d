import CallByNeed.Proofs.OnlyFails

/-!
# What an invocation lets through

Setting up the frame of an invocation may fail but never returns, and a return
from the body that aims at the frame is caught.  So no invocation ends in a
return that aims at its own frame (`SessionM.spares_invocation`).
-/

namespace CallByNeed.SessionM

variable {α β : Type} {env : EnvId}

/-- The action never ends in a return that aims at `env`. -/
def Spares (env : EnvId) (act : SessionM α) : Prop :=
  ∀ s value, (act s).1 ≠ .error (.returning env value)

theorem OnlyFails.spares {act : SessionM α} (h : act.OnlyFails) : act.Spares env :=
  fun s value he => by
    obtain ⟨_, herror⟩ := h s _ he
    cases herror

theorem Spares.bind {x : SessionM α} {f : α → SessionM β} (hx : x.Spares env)
    (hf : ∀ a, (f a).Spares env) : (x >>= f).Spares env := by
  intro s value h
  rcases hrun : x s with ⟨e | a, t⟩
  · rw [bind_run_error hrun] at h
    exact hx s value (by rw [hrun]; exact congrArg _ (Except.error.inj h))
  · rw [bind_run_ok hrun] at h
    exact hf a t value h

theorem spares_catchReturn (env : EnvId) (act : SessionM Value) :
    (catchReturn env act).Spares env := by
  intro s value h
  rcases hact : act s with ⟨outcome, t⟩
  by_cases hcaught : ∃ value, outcome = .error (.returning env value)
  · obtain ⟨value, rfl⟩ := hcaught
    rw [catchReturn_run_caught hact] at h
    cases h
  · rw [catchReturn_run_passed hact fun value he => hcaught ⟨value, he⟩] at h
    exact hcaught ⟨value, h⟩

/-- What runs inside an invocation never ends in a return that aims at its frame. -/
theorem spares_invocation (env : EnvId) (formals args : ArgList) (extra : List (Symbol × Value))
    (body : SessionM Value) :
    Spares env (do
      bindArguments formals args env
      extra.forM fun (name, value) => bindIn env name value
      catchReturn env body) :=
  (onlyFails_bindArguments _ _ _).spares.bind fun _ =>
    Spares.bind (OnlyFails.forM fun _ => onlyFails_bindIn _ _ _).spares fun _ =>
      spares_catchReturn env body

end CallByNeed.SessionM
