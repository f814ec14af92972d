import CallByNeed.Proofs.Contract
import CallByNeed.Proofs.Invocations

/-!
# Actions keep every contract

The actions that evaluate nothing: reading and writing frames, making values and
promises, filling the frame of an invocation, and collecting.  They keep a
contract because they are made of moves of a session.
-/

namespace CallByNeed.Contract

variable {C : Contract} {α β : Type}

/-! ## Failing and asking -/

theorem keeps_overflowless {r : Except EvalError α} (h : Overflowless r) :
    C.Keeps (SessionM.ofExcept r) := by
  cases r with
  | ok a => exact keeps_pure a
  | error e => exact keeps_fail (h e rfl)

theorem keeps_ofExcept {r : Except EvalError α} (h : Plain r) : C.Keeps (SessionM.ofExcept r) :=
  keeps_overflowless h.overflowless

theorem keeps_askHeap {ask : Heap → Except EvalError α} (h : ∀ heap, Overflowless (ask heap)) :
    C.Keeps (SessionM.askHeap ask) :=
  keeps_get.bind fun s => keeps_overflowless (h s.heap)

/-! ## Frames -/

theorem keeps_allocate (parent : Option EnvId) : C.Keeps (SessionM.allocate parent) :=
  keeps_modifyGet _ fun _ hinv => C.move hinv (.allocate parent)

theorem keeps_write (env : EnvId) (name : Symbol) (binding : Binding) :
    C.Keeps (SessionM.onHeap (HeapM.modifyFrame env (·.bind name binding))) := by
  intro s hinv
  have hrun := SessionM.onHeap_modifyFrame env name binding s
  split at hrun
  · rename_i hlive
    exact .of_run hrun hrun (C.move hinv (.write name binding hlive)) fun _ h => nomatch h
  · exact .of_run hrun hrun (C.refl s) fun _ h => by cases h; exact C.raises_failure hinv rfl

theorem keeps_bindIn (env : EnvId) (name : Symbol) (value : Value) :
    C.Keeps (SessionM.bindIn env name value) :=
  keeps_write env name ⟨value, false⟩

theorem keeps_assignNonLocal (env : EnvId) (name : Symbol) (value : Value) (global : EnvId) :
    C.Keeps (SessionM.onHeap (HeapM.assignNonLocal env name value global)) := by
  rw [SessionM.onHeap_assignNonLocal]
  exact (keeps_askHeap fun h => h.overflowless_nonLocalTarget env name global).bind fun _ =>
    (keeps_bindIn _ _ _).bind fun _ => keeps_pure _

theorem keeps_requireMethodsTable (env : EnvId) :
    C.Keeps (SessionM.requireMethodsTable env) := by
  refine (keeps_askHeap fun h => h.overflowless_methodsTable env).bind fun table => ?_
  cases table with
  | some table => exact keeps_pure table
  | none =>
    exact keeps_get.bind fun _ => (keeps_allocate _).bind fun table =>
      (keeps_bindIn _ _ _).bind fun _ => keeps_pure table

theorem keeps_methodsTable (env : EnvId) : C.Keeps (SessionM.methodsTable env) :=
  keeps_askHeap fun h => h.overflowless_methodsTable env

theorem keeps_registerMethod (generic className : String) (method : Value) (env : EnvId) :
    C.Keeps (SessionM.registerMethod generic className method env) :=
  (keeps_requireMethodsTable env).bind fun _ => keeps_bindIn _ _ _

/-! ## New values -/

theorem keeps_newIdentity : C.Keeps SessionM.newIdentity :=
  keeps_modifyGet _ fun _ hinv => C.move hinv .identify

theorem keeps_newVector (elements : Elements) (attributes : Attributes) :
    C.Keeps (SessionM.newVector elements attributes) :=
  keeps_newIdentity.bind fun _ => keeps_pure _

theorem keeps_newCall (function : Value) (args : ArgList) :
    C.Keeps (SessionM.newCall function args) :=
  keeps_newIdentity.bind fun _ => keeps_pure _

theorem keeps_newPromise (expr : Value) {state : PromiseState}
    (h : (⟨expr, state⟩ : Promise).isMarked = false) :
    C.Keeps (SessionM.newPromise expr state) :=
  keeps_modifyGet _ fun _ hinv => C.move hinv (.promise ⟨expr, state⟩ h)

theorem keeps_newWaiting (expr : Value) (env : EnvId) :
    C.Keeps (SessionM.newWaiting expr env) :=
  keeps_newPromise expr rfl

theorem keeps_newKept (expr value : Value) : C.Keeps (SessionM.newKept expr value) :=
  keeps_newPromise expr rfl

theorem keeps_deliver {r : Except EvalError Answer} (h : Plain r) :
    C.Keeps (SessionM.deliver r) := by
  cases r with
  | error e => exact keeps_fail (h.overflowless e rfl)
  | ok answer =>
    cases answer with
    | existing value => exact keeps_pure value
    | fresh elements attributes => exact keeps_newVector elements attributes

/-! ## Arguments -/

theorem keeps_promiseOf (expr : Value) (env : EnvId) : C.Keeps (SessionM.promiseOf expr env) := by
  unfold SessionM.promiseOf
  split
  · exact keeps_newWaiting _ _
  · exact keeps_newWaiting _ _
  · exact keeps_newKept _ _

theorem keeps_suspend (expr : Value) (env : EnvId) : C.Keeps (SessionM.suspend expr env) := by
  unfold SessionM.suspend
  split
  · exact keeps_pure _
  · exact .ite (keeps_pure _) (keeps_promiseOf _ _)

theorem keeps_ellipsisArgs (env : EnvId) : C.Keeps (SessionM.ellipsisArgs env) := by
  refine (keeps_askHeap fun h => h.overflowless_find env .ellipsis).bind fun found => ?_
  split
  · exact keeps_pure _
  · exact keeps_pure _
  · exact .ite (keeps_pure _) (keeps_fail rfl)

theorem keeps_suspendArgs (args : ArgList) (env : EnvId) :
    C.Keeps (SessionM.suspendArgs args env) := by
  induction args with
  | nil => exact keeps_pure _
  | cons arg rest ih =>
    have hrest (promised : ArgList) : C.Keeps (do
        return promised ++ (← SessionM.suspendArgs rest env)) :=
      ih.bind fun _ => keeps_pure _
    refine .ite ?_ ?_
    · exact (keeps_ellipsisArgs env).bind fun _ =>
        .bind (.mapM fun _ => (keeps_suspend _ _).bind fun _ => keeps_pure _) hrest
    · exact (keeps_suspend _ _).bind fun _ => .bind (keeps_pure _) hrest

/-! ## The frame of an invocation -/

theorem keeps_bindFormal (env : EnvId) (formal : Arg Value) (value : Value) :
    C.Keeps (SessionM.bindFormal env formal value) := by
  unfold SessionM.bindFormal
  split
  · exact keeps_pure _
  · exact .ite ((keeps_newWaiting _ _).bind fun _ => keeps_write _ _ _) (keeps_bindIn _ _ _)

theorem keeps_bindArguments (formals actuals : ArgList) (env : EnvId) :
    C.Keeps (SessionM.bindArguments formals actuals env) :=
  (keeps_ofExcept (plain_matchFormals _ _ _)).bind fun _ =>
    .forM fun (formal, arg) => keeps_bindFormal env formal arg.value

/-! ## Special forms that evaluate nothing -/

theorem keeps_requireArity (call : Call) (form : SpecialForm) (least most : Nat) :
    C.Keeps (SessionM.requireArity call form least most) :=
  .ite (keeps_fail rfl) (keeps_pure _)

theorem keeps_oneArg (call : Call) (form : SpecialForm) : C.Keeps (SessionM.oneArg call form) := by
  unfold SessionM.oneArg
  split
  · exact keeps_pure _
  · exact keeps_fail rfl

theorem keeps_twoArgs (call : Call) (form : SpecialForm) :
    C.Keeps (SessionM.twoArgs call form) := by
  unfold SessionM.twoArgs
  split
  · exact keeps_pure _
  · exact keeps_fail rfl

theorem keeps_assignmentTarget (target : Value) : C.Keeps (SessionM.assignmentTarget target) := by
  unfold SessionM.assignmentTarget
  split
  · exact .ite (keeps_fail rfl) (keeps_pure _)
  · split
    · exact keeps_pure _
    · exact keeps_fail rfl

theorem keeps_makeFunction (call : Call) (env : EnvId) :
    C.Keeps (SessionM.makeFunction call env) := by
  refine (keeps_twoArgs call .function).bind fun (formals, body) => ?_
  have hrest (formals : ArgList) : C.Keeps (do
      return Value.closure ⟨← SessionM.newIdentity, formals, body, env⟩) :=
    keeps_newIdentity.bind fun _ => keeps_pure _
  cases formals with
  | list formals => exact .bind (keeps_pure _) hrest
  | null => exact .bind (keeps_pure _) hrest
  | _ => exact .bind (keeps_fail rfl) hrest

theorem keeps_promiseIsMissing (p : Promise) : C.Keeps (SessionM.promiseIsMissing p) := by
  unfold SessionM.promiseIsMissing
  split
  · exact .ite (keeps_pure _)
      ((keeps_askHeap fun h => h.overflowless_frame _).bind fun _ => keeps_pure _)
  · exact keeps_pure _

theorem keeps_isMissing (env : EnvId) (name : Symbol) : C.Keeps (SessionM.isMissing env name) := by
  refine (keeps_askHeap fun h => h.overflowless_frame env).bind fun frame => ?_
  split
  · exact keeps_fail rfl
  · refine .ite (keeps_pure _) ?_
    split
    · refine keeps_get.bind fun s => ?_
      split
      · exact keeps_promiseIsMissing _
      · exact keeps_pure _
    · exact keeps_pure _

theorem keeps_missingForm (call : Call) (env : EnvId) :
    C.Keeps (SessionM.missingForm call env) := by
  refine (keeps_oneArg call .missing).bind fun arg => ?_
  split
  · exact (keeps_isMissing _ _).bind fun _ => keeps_newVector _ _
  · exact keeps_fail rfl

/-! ## Namespaces and the state of the session -/

theorem keeps_loadNamespace (name : Symbol) : C.Keeps (SessionM.loadNamespace name) :=
  keeps_modifyGet _ fun _ hinv => C.move hinv (.load name)

theorem keeps_namespaceOf (value : Value) : C.Keeps (SessionM.namespaceOf value) := by
  unfold SessionM.namespaceOf
  split
  · refine keeps_get.bind fun s => ?_
    split
    · exact keeps_pure _
    · exact keeps_fail rfl
  · split
    · exact keeps_loadNamespace _
    · exact keeps_fail rfl

theorem keeps_namespaceName (ns : Namespace) : C.Keeps (SessionM.namespaceName ns) :=
  keeps_get.bind fun _ =>
    .ite (keeps_newVector _ _) ((keeps_newVector _ _).bind fun _ => keeps_newVector _ _)

theorem keeps_collect (held : List Value) : C.Keeps (SessionM.collect held) := by
  intro s hinv
  cases hfreed : s.heap.collect s.promises s.rootEnvs (held ++ s.rootValues) with
  | none =>
    have hrun := SessionM.collect_run_refused hfreed
    exact .of_run hrun hrun (C.refl s) fun _ h => by cases h; exact C.raises_exhausted hinv
  | some result =>
    have hrun := SessionM.collect_run hfreed
    exact .of_run hrun hrun (C.move hinv (.collect held hfreed)) fun _ h => nomatch h

theorem keeps_introspect (query : Introspection) (args : ArgList) (env : EnvId) :
    C.Keeps (SessionM.introspect query args env) := by
  cases query with
  | depth => exact keeps_get.bind fun _ => keeps_newVector _ _
  | arguments => exact keeps_pure _
  | collect => exact (keeps_collect []).bind fun _ => keeps_newVector _ _
  | frame =>
    refine keeps_get.bind fun s => ?_
    split <;> exact keeps_pure _

end CallByNeed.Contract
