import CallByNeed.Proofs.Run

/-!
# Actions that only fail

The actions that evaluate nothing may fail, but they neither return from an
invocation nor run out of fuel.  The one exception is a collection, which is not
carried out when it meets a promise that contains itself.
-/

namespace CallByNeed.SessionM

variable {α β : Type}

/-- The action is interrupted by failures only. -/
def OnlyFails (act : SessionM α) : Prop := ∀ s e, (act s).1 = .error e → ∃ error, e = .failure error

theorem OnlyFails.ne_exhausted {act : SessionM α} (h : act.OnlyFails) (s : Session) :
    (act s).1 ≠ .error .exhausted := fun he => by
  obtain ⟨_, herror⟩ := h s _ he
  cases herror

/-! ## Sequences of actions -/

theorem onlyFails_pure (a : α) : (pure a : SessionM α).OnlyFails := fun _ _ h => nomatch h

theorem onlyFails_fail (e : EvalError) : (fail e : SessionM α).OnlyFails :=
  fun _ _ h => ⟨e, (Except.error.inj h).symm⟩

theorem onlyFails_modifyGet (f : Session → α × Session) :
    (modifyGet f : SessionM α).OnlyFails := fun _ _ h => nomatch h

theorem onlyFails_get : (get : SessionM Session).OnlyFails := fun _ _ h => nomatch h

theorem OnlyFails.bind {x : SessionM α} {f : α → SessionM β} (hx : x.OnlyFails)
    (hf : ∀ a, (f a).OnlyFails) : (x >>= f).OnlyFails := by
  intro s e h
  rcases hrun : x s with ⟨e' | a, t⟩
  · rw [bind_run_error hrun] at h
    exact hx s e (by rw [hrun]; exact congrArg _ (Except.error.inj h))
  · rw [bind_run_ok hrun] at h
    exact hf a t e h

theorem OnlyFails.ite {p : Prop} [Decidable p] {x y : SessionM α} (hx : x.OnlyFails)
    (hy : y.OnlyFails) : (if p then x else y).OnlyFails := by
  split
  · exact hx
  · exact hy

theorem OnlyFails.forM {f : α → SessionM PUnit} {items : List α} (h : ∀ a, (f a).OnlyFails) :
    (items.forM f).OnlyFails := by
  induction items with
  | nil => exact onlyFails_pure _
  | cons a rest ih => exact (h a).bind fun _ => ih

theorem OnlyFails.mapM {f : α → SessionM β} {items : List α} (h : ∀ a, (f a).OnlyFails) :
    (items.mapM f).OnlyFails := by
  induction items with
  | nil => exact onlyFails_pure _
  | cons a rest ih =>
    rw [List.mapM_cons]
    exact (h a).bind fun b => ih.bind fun bs => onlyFails_pure _

theorem onlyFails_ofExcept (r : Except EvalError α) : (ofExcept r).OnlyFails := by
  cases r with
  | ok a => exact onlyFails_pure a
  | error e => exact onlyFails_fail e

/-! ## Frames -/

theorem onlyFails_askHeap (ask : Heap → Except EvalError α) : (askHeap ask).OnlyFails :=
  onlyFails_get.bind fun _ => onlyFails_ofExcept _

theorem onlyFails_onHeap (act : HeapM α) : (onHeap act).OnlyFails := by
  intro s e h
  rcases hact : act s.heap with ⟨error | a, heap⟩
  · rw [onHeap_run_error hact] at h
    exact ⟨error, (Except.error.inj h).symm⟩
  · rw [onHeap_run_ok hact] at h
    cases h

theorem onlyFails_bindIn (env : EnvId) (name : Symbol) (value : Value) :
    (bindIn env name value).OnlyFails := onlyFails_onHeap _

theorem onlyFails_registerMethod (generic className : String) (method : Value) (env : EnvId) :
    (registerMethod generic className method env).OnlyFails := by
  refine OnlyFails.bind ((onlyFails_askHeap _).bind fun table => ?_) fun _ => onlyFails_bindIn _ _ _
  cases table with
  | some table => exact onlyFails_pure table
  | none =>
    exact onlyFails_get.bind fun _ => (onlyFails_modifyGet _).bind fun table =>
      (onlyFails_bindIn _ _ _).bind fun _ => onlyFails_pure table

/-! ## New values -/

theorem onlyFails_newVector (elements : Elements) (attributes : Attributes) :
    (newVector elements attributes).OnlyFails :=
  (onlyFails_modifyGet _).bind fun _ => onlyFails_pure _

theorem onlyFails_newCall (function : Value) (args : ArgList) :
    (newCall function args).OnlyFails :=
  (onlyFails_modifyGet _).bind fun _ => onlyFails_pure _

theorem onlyFails_newPromise (expr : Value) (state : PromiseState) :
    (newPromise expr state).OnlyFails := onlyFails_modifyGet _

theorem onlyFails_deliver (r : Except EvalError Answer) : (deliver r).OnlyFails := by
  rcases r with e | ⟨value | ⟨elements, attributes⟩⟩
  · exact onlyFails_fail e
  · exact onlyFails_pure value
  · exact onlyFails_newVector elements attributes

/-! ## Arguments -/

theorem onlyFails_suspend (expr : Value) (env : EnvId) : (suspend expr env).OnlyFails := by
  unfold suspend
  split
  · exact onlyFails_pure _
  · refine .ite (onlyFails_pure _) ?_
    unfold promiseOf
    split <;> exact onlyFails_newPromise _ _

theorem onlyFails_ellipsisArgs (env : EnvId) : (ellipsisArgs env).OnlyFails := by
  refine (onlyFails_askHeap _).bind fun found => ?_
  split
  · exact onlyFails_pure _
  · exact onlyFails_pure _
  · exact .ite (onlyFails_pure _) (onlyFails_fail _)

theorem onlyFails_suspendArgs (args : ArgList) (env : EnvId) :
    (suspendArgs args env).OnlyFails := by
  induction args with
  | nil => exact onlyFails_pure _
  | cons arg rest ih =>
    have hrest (promised : ArgList) :
        OnlyFails (do return promised ++ (← suspendArgs rest env)) :=
      ih.bind fun _ => onlyFails_pure _
    refine .ite ?_ ?_
    · exact (onlyFails_ellipsisArgs env).bind fun _ =>
        .bind (.mapM fun _ => (onlyFails_suspend _ _).bind fun _ => onlyFails_pure _) hrest
    · exact (onlyFails_suspend _ _).bind fun _ => .bind (onlyFails_pure _) hrest

/-! ## The frame of an invocation -/

theorem onlyFails_bindFormal (env : EnvId) (formal : Arg Value) (value : Value) :
    (bindFormal env formal value).OnlyFails := by
  unfold bindFormal
  split
  · exact onlyFails_pure _
  · exact .ite ((onlyFails_newPromise _ _).bind fun _ => onlyFails_onHeap _)
      (onlyFails_bindIn _ _ _)

theorem onlyFails_bindArguments (formals actuals : ArgList) (env : EnvId) :
    (bindArguments formals actuals env).OnlyFails :=
  (onlyFails_ofExcept _).bind fun _ => .forM fun _ => onlyFails_bindFormal _ _ _

/-! ## Special forms, namespaces and the state of the session -/

theorem onlyFails_makeFunction (call : Call) (env : EnvId) :
    (makeFunction call env).OnlyFails := by
  have htwo : (twoArgs call .function).OnlyFails := by
    unfold twoArgs
    split
    · exact onlyFails_pure _
    · exact onlyFails_fail _
  refine htwo.bind fun (formals, body) => ?_
  have hrest (formals : ArgList) :
      OnlyFails (do return Value.closure ⟨← newIdentity, formals, body, env⟩) :=
    (onlyFails_modifyGet _).bind fun _ => onlyFails_pure _
  cases formals with
  | list formals => exact .bind (onlyFails_pure _) hrest
  | null => exact .bind (onlyFails_pure _) hrest
  | _ => exact .bind (onlyFails_fail _) hrest

theorem onlyFails_namespaceOf (value : Value) : (namespaceOf value).OnlyFails := by
  unfold namespaceOf
  split
  · refine onlyFails_get.bind fun _ => ?_
    split
    · exact onlyFails_pure _
    · exact onlyFails_fail _
  · split
    · exact onlyFails_modifyGet _
    · exact onlyFails_fail _

theorem onlyFails_namespaceName (ns : Namespace) : (namespaceName ns).OnlyFails :=
  onlyFails_get.bind fun _ => .ite (onlyFails_newVector _ _)
    ((onlyFails_newVector _ _).bind fun _ => onlyFails_newVector _ _)

theorem onlyFails_introspect {query : Introspection} (hquery : query ≠ .collect) (args : ArgList)
    (env : EnvId) : (introspect query args env).OnlyFails := by
  cases query with
  | depth => exact onlyFails_get.bind fun _ => onlyFails_newVector _ _
  | arguments => exact onlyFails_pure _
  | collect => exact absurd rfl hquery
  | frame =>
    refine onlyFails_get.bind fun s => ?_
    split <;> exact onlyFails_pure _

end CallByNeed.SessionM
