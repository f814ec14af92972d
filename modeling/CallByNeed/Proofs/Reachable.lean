import CallByNeed.Proofs.Contract.Loops

/-!
# Reachable sessions

A session is reachable if it comes about from a new one by evaluations, in the
middle of one, or by what a host does in between.  The sessions in the middle of
an evaluation are those in which a rule hands on a task: an action consults its
evaluator about a task in a session if another answer there would show
(`Evaluator.Consults`).

`Session.Reachable.inv` is the way to use a contract: its invariant holds in
every reachable session if it holds in a new one and a host keeps it.
-/

namespace CallByNeed

namespace Evaluator

/-- An action that uses an evaluator hands on a task in the session `t`: another answer to that
    task, in that session alone, changes what the action does. -/
def Consults {α : Type} (act : Evaluator → SessionM α) (ev : Evaluator) (s : Session) (task : Task)
    (t : Session) : Prop :=
  ∃ other : Evaluator,
    (∀ task' t', (task', t') ≠ (task, t) → other task' t' = ev task' t') ∧ act other s ≠ act ev s

/-- An evaluation with this fuel passes through the session `t`: it hands on a task there, or a task
    inside it does. -/
inductive Visits : (fuel : Nat) → (act : Evaluator → SessionM Value) → (s t : Session) → Prop where
  | handsOn {fuel : Nat} {act : Evaluator → SessionM Value} {s t : Session} {task : Task}
      (h : Consults act (evaluator fuel) s task t) : Visits fuel act s t
  | inside {fuel : Nat} {act : Evaluator → SessionM Value} {s t u : Session} {task : Task}
      (h : Consults act (evaluator (fuel + 1)) s task t)
      (hinside : Visits fuel (fun ev => ev.step task) t u) : Visits (fuel + 1) act s u

/-- The ways into evaluation that a host or a builtin has. -/
inductive Entry where
  | evaluate (expr : Value) (env : EnvId)
  | demand (id : PromiseId)
  | invoke (closure : Closure) (callerEnv : EnvId) (call : Call) (args : ArgList)
      (extra : List (Symbol × Value))
  | apply (function : Value) (call : Call) (args : ArgList) (env : EnvId)
      (extra : List (Symbol × Value))
  | callFunction (function : Value) (args : ArgList) (env : EnvId)

/-- The evaluation that begins with an entry. -/
def Entry.run (ev : Evaluator) : Entry → SessionM Value
  | evaluate expr env => ev.evaluate expr env
  | demand id => ev.demand id
  | invoke closure callerEnv call args extra => ev.invoke closure callerEnv call args extra
  | apply function call args env extra => ev.applyValue function call args env extra
  | callFunction function args env => ev.callFunction function args env

end Evaluator

namespace Session

/-- What a host may do with a session between two evaluations. -/
inductive HostStep : Session → Session → Prop where
  | move {s t : Session} (h : s.Move t) : HostStep s t
  | hold {s : Session} (preserved : List Value) : HostStep s { s with preserved }
  | publish {s : Session} (ns : Namespace) :
      HostStep s { s with namespaces := s.namespaces.update ns }
  | recount {s : Session} (stats : LoopStats) : HostStep s { s with stats }

/-- A session that comes about from a new one with these options and kernels. -/
inductive Reachable (options : Options) (kernels : KernelTable) : (s : Session) → Prop where
  | initial : Reachable options kernels (.initial options kernels)
  | ran {s : Session} (h : Reachable options kernels s) (fuel : Nat) (task : Task) :
      Reachable options kernels (evaluator fuel task s).2
  | during {s t : Session} (h : Reachable options kernels s) (fuel : Nat) {task inner : Task}
      (hinner : Evaluator.Consults (fun ev => ev.step task) (evaluator fuel) s inner t) :
      Reachable options kernels t
  | host {s t : Session} (h : Reachable options kernels s) (hstep : s.HostStep t) :
      Reachable options kernels t

end Session

namespace Contract

variable {C : Contract} {α : Type}

/-! ## Ways into evaluation -/

theorem keeps_quoted (value : Value) : C.Keeps (SessionM.quoted value) := by
  have hcall : C.Keeps (SessionM.quoted.quoteCall value) :=
    (keeps_newCall _ _).bind fun _ => keeps_pure _
  cases value with
  | symbol name => exact hcall
  | call c => exact hcall
  | _ => exact keeps_pure _

theorem keeps_hostArg (value : Value) : C.Keeps (SessionM.hostArg value) := by
  unfold SessionM.hostArg
  split
  · exact keeps_pure _
  · exact .ite (keeps_pure _) ((keeps_quoted _).bind fun _ => keeps_newKept _ _)

theorem agree_callFunction {ev₁ ev₂ : Evaluator} (h : C.AgreeAll ev₁ ev₂) (function : Value)
    (args : ArgList) (env : EnvId) :
    C.Agree (ev₁.callFunction function args env) (ev₂.callFunction function args env) := by
  refine Agree.bind (.mapM fun arg => (keeps_hostArg _).bind fun _ => keeps_pure _)
    fun promised => ?_
  exact (keeps_newCall _ _).bind fun call => h _

theorem agree_entry {ev₁ ev₂ : Evaluator} (h : C.AgreeAll ev₁ ev₂) (entry : Evaluator.Entry) :
    C.Agree (entry.run ev₁) (entry.run ev₂) := by
  cases entry with
  | evaluate expr env => exact agree_evaluate h _ _
  | demand id => exact agree_demand h _
  | invoke closure callerEnv call args extra => exact agree_invoke h _ _ _ _ _
  | apply function call args env extra => exact agree_applyValue h _ _ _ _ _
  | callFunction function args env => exact agree_callFunction h _ _ _

/-! ## Sessions in the middle of an evaluation -/

/-- An action that agrees for agreeing evaluators hands on its tasks in sessions with the
    invariant: elsewhere it could not tell two evaluators apart. -/
theorem inv_of_consults (hstrict : ¬ C.lenient) {act : Evaluator → SessionM α} {ev : Evaluator}
    {s t : Session} {task : Task}
    (hact : ∀ {ev₁ ev₂}, C.AgreeAll ev₁ ev₂ → C.Agree (act ev₁) (act ev₂))
    (hev : C.AgreeAll ev ev) (hinv : C.inv s) (h : Evaluator.Consults act ev s task t) :
    C.inv t := by
  obtain ⟨other, hsame, hdiffers⟩ := h
  refine Classical.byContradiction fun hbroken => ?_
  -- `other` differs from `ev` in a session without the invariant only, so they agree
  have heq {task' : Task} {t' : Session} (ht' : C.inv t') : other task' t' = ev task' t' :=
    hsame task' t' fun he => by
      cases he
      exact hbroken ht'
  have hother : C.AgreeAll other ev :=
    ⟨fun task' t' ht' => .of_eq (heq ht') (hev task' t' ht'),
      fun hinv hrun => hev.gives hinv ((heq hinv).symm.trans hrun)⟩
  exact hdiffers ((hact hother s hinv).same.resolve_right fun h => hstrict h.1)

/-- An evaluation passes through sessions with the invariant only. -/
theorem Closed.inv_of_visits (hC : C.Closed) (hstrict : ¬ C.lenient) {fuel : Nat}
    {act : Evaluator → SessionM Value} {s t : Session}
    (hact : ∀ {ev₁ ev₂}, C.AgreeAll ev₁ ev₂ → C.Agree (act ev₁) (act ev₂))
    (hinv : C.inv s) (h : Evaluator.Visits fuel act s t) : C.inv t := by
  induction h with
  | handsOn h => exact inv_of_consults hstrict hact (hC.agree_evaluator _) hinv h
  -- the inner task begins in a session with the invariant, as the step of the same evaluator
  | inside h _ ih =>
    exact ih (fun hev => hC.agree_step hev _)
      (inv_of_consults hstrict hact (hC.agree_evaluator _) hinv h)

/-- What evaluations and hosts keep and a new session has, every reachable session has. -/
theorem Closed.inv_of_reachable (hC : C.Closed) (hstrict : ¬ C.lenient) {options : Options}
    {kernels : KernelTable} {s : Session} (hinitial : C.inv (.initial options kernels))
    (hhost : ∀ {s t}, C.inv s → s.HostStep t → C.inv t) (h : s.Reachable options kernels) :
    C.inv s := by
  induction h with
  | initial => exact hinitial
  | ran _ fuel task ih => exact C.inv_of_rel ih (hC.agree_evaluator fuel task _ ih).rel
  | during _ fuel hinner ih =>
    exact inv_of_consults hstrict (fun hev => hC.agree_step hev _) (hC.agree_evaluator fuel) ih
      hinner
  | host _ hstep ih => exact hhost ih hstep

end Contract

end CallByNeed
