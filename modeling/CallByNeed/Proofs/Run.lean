import CallByNeed.Session

/-!
# Actions as functions of the session

An action is a function from the session before it to its outcome and the
session after it.  The lemmas here say what the small actions are as functions,
`bind_run` above all: the second action runs in the session that the first one
left, or not at all.

`Session.Move` lists the ways in which those small actions change a session.
Everything that evaluation does to a session is a sequence of such moves, apart
from the brackets around promises and invocations and from the record of loops.
-/

namespace CallByNeed

def Promise.isMarked (p : Promise) : Bool :=
  match p.state with
  | .waiting _ underEvaluation => underEvaluation
  | .kept _ => false

namespace Session

def bound (s : Session) (env : EnvId) (name : Symbol) (binding : Binding) : Session :=
  { s with heap := s.heap.updateSlot env.index (·.bind name binding) }

def mark (s : Session) (id : PromiseId) (underEvaluation : Bool) : Session :=
  { s with promises := s.promises.update id (Promise.mark underEvaluation) }

def keep (s : Session) (id : PromiseId) (value : Value) : Session :=
  { s with promises := s.promises.update id (Promise.keep value) }

def counting (s : Session) (identities : Nat) : Session := { s with identities }

def enter (s : Session) (i : Invocation) : Session := { s with stack := i :: s.stack }

def leave (s : Session) : Session := { s with stack := s.stack.tail }

/-- A small change of a session: one binding, one new frame, one new identity, one new promise, a
    namespace that is loaded, or a collection that keeps some values. -/
inductive Move : Session → Session → Prop where
  | write {s : Session} {env : EnvId} (name : Symbol) (binding : Binding)
      (live : s.heap.contains env) : Move s (s.bound env name binding)
  | allocate {s : Session} (parent : Option EnvId) :
      Move s { s with heap := (s.heap.allocate parent).2 }
  | identify {s : Session} : Move s { s with identities := s.identities + 1 }
  | promise {s : Session} (p : Promise) (unmarked : p.isMarked = false) :
      Move s { s with promises := (s.promises.add p).2 }
  | load {s : Session} (name : Symbol) :
      Move s
        { s with
          namespaces := (s.namespaces.load s.heap name).2.1
          heap := (s.namespaces.load s.heap name).2.2 }
  | collect {s : Session} {freed : Nat} {heap : Heap} (held : List Value)
      (h : s.heap.collect s.promises s.rootEnvs (held ++ s.rootValues) = some (freed, heap)) :
      Move s { s with heap }

end Session

namespace SessionM

variable {α β : Type}

/-! ## Outcomes -/

@[simp] theorem pure_run (a : α) (s : Session) : (pure a : SessionM α) s = (.ok a, s) := rfl

@[simp] theorem throw_run (e : Interrupt) (s : Session) :
    (throw e : SessionM α) s = (.error e, s) := rfl

@[simp] theorem fail_run (e : EvalError) (s : Session) :
    (fail e : SessionM α) s = (.error (.failure e), s) := rfl

/-- The second action runs in the session that the first one left, if that one had a value. -/
theorem bind_run (x : SessionM α) (f : α → SessionM β) (s : Session) :
    (x >>= f) s =
      match x s with
      | (.ok a, t) => f a t
      | (.error e, t) => (.error e, t) := by
  change StateT.bind x (ExceptT.bindCont f) s = _
  simp only [StateT.bind]
  generalize x s = r
  obtain ⟨outcome, t⟩ := r
  cases outcome <;> rfl

theorem bind_run_ok {x : SessionM α} {a : α} {s t : Session} (h : x s = (.ok a, t))
    (f : α → SessionM β) : (x >>= f) s = f a t := by
  rw [bind_run, h]

theorem bind_run_error {x : SessionM α} {e : Interrupt} {s t : Session} (h : x s = (.error e, t))
    (f : α → SessionM β) : (x >>= f) s = (.error e, t) := by
  rw [bind_run, h]

theorem bind_exhausted {x : SessionM α} {s : Session} (h : (x s).1 = .error .exhausted)
    (f : α → SessionM β) : ((x >>= f) s).1 = .error .exhausted := by
  rw [bind_run]
  rcases hx : x s with ⟨outcome, t⟩
  rw [hx] at h
  cases h
  rfl

@[simp] theorem ofExcept_ok (a : α) : (ofExcept (.ok a) : SessionM α) = pure a := rfl

@[simp] theorem ofExcept_error (e : EvalError) : (ofExcept (.error e) : SessionM α) = fail e := rfl

theorem attempt_run_ok {act : SessionM α} {a : α} {s t : Session} (h : act s = (.ok a, t)) :
    attempt act s = (.ok (some a), t) := by
  simp only [attempt, h]

/-! ## The session as state -/

@[simp] theorem get_run (s : Session) : (get : SessionM Session) s = (.ok s, s) := rfl

@[simp] theorem set_run (t s : Session) : (set t : SessionM PUnit) s = (.ok (), t) := rfl

@[simp] theorem modify_run (f : Session → Session) (s : Session) :
    (modify f : SessionM Unit) s = (.ok (), f s) := rfl

@[simp] theorem modifyGet_run (f : Session → α × Session) (s : Session) :
    (modifyGet f : SessionM α) s = (.ok (f s).1, (f s).2) := rfl

@[simp] theorem get_bind_run (f : Session → SessionM β) (s : Session) :
    ((get : SessionM Session) >>= f) s = f s s := rfl

@[simp] theorem pure_bind_run (a : α) (f : α → SessionM β) (s : Session) :
    ((pure a : SessionM α) >>= f) s = f a s := rfl

@[simp] theorem modify_bind_run (g : Session → Session) (f : Unit → SessionM β) (s : Session) :
    ((modify g : SessionM Unit) >>= f) s = f () (g s) := rfl

theorem askHeap_run (ask : Heap → Except EvalError α) (s : Session) :
    askHeap ask s = ofExcept (ask s.heap) s := rfl

theorem askHeap_run_ok {ask : Heap → Except EvalError α} {a : α} {s : Session}
    (h : ask s.heap = .ok a) : askHeap ask s = (.ok a, s) := by
  rw [askHeap_run, h]
  rfl

theorem askHeap_run_error {ask : Heap → Except EvalError α} {e : EvalError} {s : Session}
    (h : ask s.heap = .error e) : askHeap ask s = (.error (.failure e), s) := by
  rw [askHeap_run, h]
  rfl

theorem askFrame_run {id : EnvId} {f : Frame} {s : Session} (hframe : s.heap.frame? id = some f) :
    askHeap (fun h => h.frame id) s = (.ok f, s) :=
  askHeap_run_ok (by simp only [Heap.frame, hframe])

theorem askFrame_run_stale {id : EnvId} {s : Session} (hframe : s.heap.frame? id = none) :
    askHeap (fun h => h.frame id) s = (.error (.failure (.staleEnvironment id)), s) :=
  askHeap_run_error (by simp only [Heap.frame, hframe])

/-! ## Collections -/

/-- A collection that meets a promise that contains itself is not carried out. -/
theorem collect_run_refused {extra : List Value} {s : Session}
    (h : s.heap.collect s.promises s.rootEnvs (extra ++ s.rootValues) = none) :
    collect extra s = (.error .exhausted, s) := by
  simp only [collect, collectFrom, get_bind_run, h, throw_run]

theorem collect_run {extra : List Value} {s : Session} {freed : Nat} {heap : Heap}
    (h : s.heap.collect s.promises s.rootEnvs (extra ++ s.rootValues) = some (freed, heap)) :
    collect extra s = (.ok freed, { s with heap }) := by
  simp only [collect, collectFrom, get_bind_run, h]
  rfl

/-! ## Writing frames -/

theorem onHeap_run_ok {act : HeapM α} {a : α} {heap : Heap} {s : Session}
    (h : act s.heap = (.ok a, heap)) : onHeap act s = (.ok a, { s with heap }) := by
  simp only [onHeap, h]

theorem onHeap_run_error {act : HeapM α} {e : EvalError} {heap : Heap} {s : Session}
    (h : act s.heap = (.error e, heap)) :
    onHeap act s = (.error (.failure e), { s with heap }) := by
  simp only [onHeap, h]

theorem onHeap_bind (x : HeapM α) (f : α → HeapM β) :
    onHeap (x >>= f) = onHeap x >>= fun a => onHeap (f a) := by
  funext s
  rw [bind_run]
  cases hx : x s.heap with
  | mk outcome heap =>
    have hbind : (x >>= f) s.heap = ExceptT.bindCont f outcome heap := by
      change StateT.bind x (ExceptT.bindCont f) s.heap = _
      simp only [StateT.bind, hx]
      rfl
    cases outcome with
    | error e => rw [onHeap_run_error hx, onHeap_run_error hbind]
    | ok a =>
      rw [onHeap_run_ok hx]
      simp only [onHeap, hbind]
      rfl

theorem onHeap_ofExcept (r : Except EvalError α) :
    onHeap (ExceptT.mk (pure r)) = ofExcept r := by
  cases r <;> rfl

/-- Changing a frame fails if the frame has been freed. -/
theorem modifyFrame_run (id : EnvId) (change : Frame → Frame) (h : Heap) :
    HeapM.modifyFrame id change h =
      if h.contains id then (.ok (), h.updateSlot id.index change)
      else (.error (.staleEnvironment id), h) := by
  change (if h.contains id then _ else _ : HeapM Unit) h = _
  split <;> rfl

theorem onHeap_modifyFrame (env : EnvId) (name : Symbol) (binding : Binding) (s : Session) :
    onHeap (HeapM.modifyFrame env (·.bind name binding)) s =
      if s.heap.contains env then (.ok (), s.bound env name binding)
      else (.error (.failure (.staleEnvironment env)), s) := by
  have hrun := modifyFrame_run env (·.bind name binding) s.heap
  split at hrun
  · rename_i hlive
    rw [if_pos hlive]
    exact onHeap_run_ok hrun
  · rename_i hlive
    rw [if_neg hlive]
    exact onHeap_run_error hrun

theorem bindIn_run (env : EnvId) (name : Symbol) (value : Value) (s : Session) :
    bindIn env name value s =
      if s.heap.contains env then (.ok (), s.bound env name ⟨value, false⟩)
      else (.error (.failure (.staleEnvironment env)), s) :=
  onHeap_modifyFrame env name ⟨value, false⟩ s

/-- A non-local assignment is a binding in the environment that it finds. -/
theorem onHeap_assignNonLocal (env : EnvId) (name : Symbol) (value : Value) (global : EnvId) :
    onHeap (HeapM.assignNonLocal env name value global) =
      (do
        let target ← askHeap fun h => h.nonLocalTarget env name global
        bindIn target name value
        return target) := by
  funext s
  rw [HeapM.assignNonLocal, onHeap_bind]
  change onHeap (ExceptT.mk (pure (s.heap.nonLocalTarget env name global)) >>= _) s = _
  rw [onHeap_bind, onHeap_ofExcept, bind_run, bind_run, askHeap_run]
  cases ofExcept (s.heap.nonLocalTarget env name global) s with
  | mk outcome t =>
    cases outcome with
    | error e => rfl
    | ok target => exact congrFun (onHeap_bind _ _) t

end SessionM

namespace SessionM

/-! ## Invocations -/

variable {α : Type} (i : Invocation) (act : SessionM α) {s : Session}

/-- An invocation is on the stack exactly while its action runs. -/
theorem withInvocation_run (h : s.depth < s.options.maxCallDepth) :
    withInvocation i act s = ((act (s.enter i)).1, (act (s.enter i)).2.leave) := by
  simp only [withInvocation, get_bind_run]
  rw [if_neg (by omega)]
  rfl

theorem withInvocation_run_full (h : s.options.maxCallDepth ≤ s.depth) :
    withInvocation i act s = (.error (.failure (.stackOverflow s.depth)), s) := by
  simp only [withInvocation, get_bind_run]
  rw [if_pos h]
  rfl

/-- What an invocation would do with more invocations on the stack than are allowed is of no
    account. -/
theorem withInvocation_congr {x y : SessionM α}
    (h : ∀ t, t.depth ≤ t.options.maxCallDepth → x t = y t) :
    withInvocation i x = withInvocation i y := by
  funext s
  by_cases hroom : s.depth < s.options.maxCallDepth
  · rw [withInvocation_run i x hroom, withInvocation_run i y hroom, h (s.enter i) hroom]
  · have hfull : s.options.maxCallDepth ≤ s.depth := by omega
    rw [withInvocation_run_full i x hfull, withInvocation_run_full i y hfull]

theorem catchReturn_run_caught {env : EnvId} {act : SessionM Value} {value : Value}
    {s t : Session} (h : act s = (.error (.returning env value), t)) :
    catchReturn env act s = (.ok value, t) := by
  simp only [catchReturn, h, if_pos]

theorem catchReturn_run_passed {env : EnvId} {act : SessionM Value}
    {outcome : Except Interrupt Value} {s t : Session} (h : act s = (outcome, t))
    (hne : ∀ value, outcome ≠ .error (.returning env value)) :
    catchReturn env act s = (outcome, t) := by
  rcases outcome with (_ | ⟨target, value⟩ | _) | _
  · simp only [catchReturn, h]
  · have htarget : target ≠ env := fun he => hne value (by rw [he])
    simp only [catchReturn, h, if_neg htarget]
  · simp only [catchReturn, h]
  · simp only [catchReturn, h]

end SessionM

/-! ## Forcing promises -/

namespace Evaluator

variable (ev : Evaluator) {s : Session} {id : PromiseId}

theorem demand_run_kept {expr value : Value} (h : s.promises.get? id = some ⟨expr, .kept value⟩) :
    ev.demand id s = (.ok value, s) := by
  simp only [demand, SessionM.get_bind_run, h, SessionM.pure_run]

/-- A waiting promise is marked while its expression is evaluated, and then has its value or waits
    as before. -/
theorem demand_run_waiting {expr : Value} {env : EnvId}
    (h : s.promises.get? id = some ⟨expr, .waiting env false⟩) :
    ev.demand id s =
      match ev.evaluate expr env (s.mark id true) with
      | (.ok value, t) => (.ok value, (t.mark id false).keep id value)
      | (.error e, t) => (.error e, t.mark id false) := by
  simp only [demand, SessionM.get_bind_run, h]
  have hmark : whileEvaluating id (ev.evaluate expr env) s =
      ((ev.evaluate expr env (s.mark id true)).1,
        (ev.evaluate expr env (s.mark id true)).2.mark id false) := rfl
  rw [SessionM.bind_run, hmark]
  cases ev.evaluate expr env (s.mark id true) with
  | mk outcome t => cases outcome <;> rfl

/-- A promise that is under evaluation, or is not there, cannot be forced. -/
theorem demand_run_recursive
    (hkept : ∀ expr value, s.promises.get? id ≠ some ⟨expr, .kept value⟩)
    (hwaiting : ∀ expr env, s.promises.get? id ≠ some ⟨expr, .waiting env false⟩) :
    ev.demand id s = (.error (.failure .recursivePromise), s) := by
  simp only [demand, SessionM.get_bind_run]
  rcases hp : s.promises.get? id with _ | ⟨expr, (⟨env, _ | _⟩ | value)⟩
  · rfl
  · exact absurd hp (hwaiting _ _)
  · rfl
  · exact absurd hp (hkept _ _)

end Evaluator

/-! ## Deciding about loops -/

/-- What an analysis makes of a new loop instance. -/
def LoopStatus.ofAnalysis : Option Accumulation → LoopStatus
  | some loop => candidate loop
  | none => generic

namespace Session

def countAnalysis (s : Session) : Session :=
  { s with stats := { s.stats with analyzed := s.stats.analyzed + 1 } }

def countGenericRun (s : Session) : Session :=
  { s with stats := { s.stats with genericRuns := s.stats.genericRuns + 1 } }

def enterLoop (s : Session) (call : Call) (status : LoopStatus) : Session :=
  { s with loops := s.loops.insert call status }

def fuseLoop (s : Session) (call : Call) (loop : Accumulation) : Session :=
  { s with
    loops := s.loops.set call (.fused loop)
    stats := { s.stats with fusedRuns := s.stats.fusedRuns + 1 } }

def bailLoop (s : Session) (call : Call) : Session :=
  { s with
    loops := s.loops.set call .generic
    stats := { s.stats with bailouts := s.stats.bailouts + 1 } }

end Session

namespace Evaluator

variable (ev : Evaluator) {s : Session} {call : Call}

theorem ensureAnalyzed_run_known (env : EnvId) (var : Symbol) (body : Value)
    (h : s.loops.contains call = true) : ev.ensureAnalyzed call env var body s = (.ok (), s) := by
  simp only [ensureAnalyzed, SessionM.get_bind_run, h, if_true, SessionM.pure_run]

/-- A new instance is entered after its analysis. -/
theorem ensureAnalyzed_run_new (env : EnvId) (var : Symbol) (body : Value)
    (h : s.loops.contains call = false) :
    ev.ensureAnalyzed call env var body s =
      match ev.analyze env var body s.countAnalysis with
      | (.ok found, t) => (.ok (), t.enterLoop call (.ofAnalysis found))
      | (.error e, t) => (.error e, t) := by
  simp only [ensureAnalyzed, SessionM.get_bind_run, h, Bool.false_eq_true, if_false]
  change (ev.analyze env var body >>= _ : SessionM Unit) s.countAnalysis = _
  rw [SessionM.bind_run]
  rcases ev.analyze env var body s.countAnalysis with ⟨_ | found, t⟩
  · rfl
  · cases found <;> rfl

theorem tryFused_run_unfit (env : EnvId) (var : Symbol) (sequence : Value)
    (h : (s.loops.status? call).bind LoopStatus.accumulation? = none) :
    ev.tryFused call env var sequence s = (.ok false, s) := by
  simp only [tryFused, SessionM.get_bind_run, h, SessionM.pure_run]

theorem tryFused_run_empty (env : EnvId) (var : Symbol) {sequence : Value}
    (h : sequence.length = 0) : ev.tryFused call env var sequence s = (.ok false, s) := by
  simp only [tryFused, SessionM.get_bind_run]
  cases (s.loops.status? call).bind LoopStatus.accumulation? with
  | none => rfl
  | some loop => simp only [h, if_true, SessionM.pure_run]

/-- An instance that is fit is run on whole vectors, and it is recorded how that ended. -/
theorem tryFused_run_fit (env : EnvId) (var : Symbol) {sequence : Value} {loop : Accumulation}
    (hloop : (s.loops.status? call).bind LoopStatus.accumulation? = some loop)
    (hlength : sequence.length ≠ 0) :
    ev.tryFused call env var sequence s =
      match (ev.fusedRun loop env var sequence).run s with
      | (.ok (.ok ()), t) => (.ok true, t.fuseLoop call loop)
      | (.ok (.error _), t) => (.ok false, t.bailLoop call)
      | (.error e, t) => (.error e, t) := by
  simp only [tryFused, SessionM.get_bind_run, hloop, hlength, if_false]
  rw [SessionM.bind_run]
  rcases (ev.fusedRun loop env var sequence).run s with ⟨_ | (_ | _), t⟩ <;> rfl

end Evaluator

end CallByNeed
