import CallByNeed.Proofs.Relocation.Actions

/-!
# Arguments and frames in a relocated session

What a call makes of its arguments carries over, and so do the frames that are made
for closures, the special forms that evaluate nothing, and what is asked of
namespaces and collections.
-/

namespace CallByNeed.Relocation.Carries

open Renaming

variable {ρ : Relocation} {call : Call} {env : EnvId}

/-! ## Arguments -/

theorem suspend (expr : Value) (env : EnvId) :
    ρ.Carries ρ.move (SessionM.suspend expr env) (SessionM.suspend (ρ.move expr) env) := by
  have hwaiting := newWaiting (ρ := ρ) expr env
  have hkept := newKept (ρ := ρ) expr expr
  have hshape := ρ.reshaped expr
  generalize ρ.move expr = expr' at *
  cases hshape with
  | promise p => exact pure rfl
  | symbol name => exact ite Iff.rfl (pure rfl) hwaiting
  | call c => exact hwaiting
  | _ => exact hkept

theorem ellipsisArgs (env : EnvId) :
    ρ.Carries ρ.move (SessionM.ellipsisArgs env) (SessionM.ellipsisArgs env) := by
  refine bind (askHeap fun h => find_move h env .ellipsis) fun found => ?_
  rcases found with _ | ⟨owner, value⟩
  · exact pure rfl
  · have hshape := ρ.reshaped value
    rw [show rename (ofPromises ρ.promise) (some (owner, value)) =
      some (owner, ρ.move value) from rfl]
    generalize ρ.move value = value' at *
    cases hshape with
    | dots args => exact pure rfl
    | symbol name => exact ite Iff.rfl (pure rfl) (fail _)
    | _ => exact fail _

theorem suspendArgs (args : ArgList) (env : EnvId) :
    ρ.Carries ρ.move (SessionM.suspendArgs args env) (SessionM.suspendArgs (ρ.move args) env) := by
  induction args with
  | nil => exact pure rfl
  | cons arg rest ih =>
    have hmore (promised : ArgList) : ρ.Carries ρ.move
        (do return promised ++ (← SessionM.suspendArgs rest env))
        (do return ρ.move promised ++ (← SessionM.suspendArgs (ρ.move rest) env)) :=
      ih.map fun more => rename_append promised more
    have hone (arg : Arg Value) : ρ.Carries ρ.move
        (do return Arg.new arg.tag (← SessionM.suspend arg.value env))
        (do return Arg.new arg.tag (← SessionM.suspend (ρ.move arg.value) env)) :=
      (suspend arg.value env).map fun _ => rfl
    refine ite ?_ ((ellipsisArgs env).bind fun dots => (mapM hone dots).bind hmore)
      ((suspend arg.value env).bind fun value => bind (f := ρ.move) (pure rfl) hmore)
    simp

/-! ## Frames of closures -/

theorem bindFormal (env : EnvId) (formal : Arg Value) (value : Value) :
    ρ.Carries id (SessionM.bindFormal env formal value)
      (SessionM.bindFormal env (ρ.move formal) (ρ.move value)) := by
  obtain ⟨_ | name, default⟩ := formal
  · exact pure rfl
  · refine ite ?_ ((newWaiting default env).bind fun promise => bindFrame env name ⟨promise, true⟩)
      (bindIn env name value)
    simp

theorem bindArguments (formals actuals : ArgList) (env : EnvId) :
    ρ.Carries id (SessionM.bindArguments formals actuals env)
      (SessionM.bindArguments (ρ.move formals) (ρ.move actuals) env) := by
  refine bind (ofExcept (matchFormals_rename _ formals actuals true)) fun matched => ?_
  have hzip : (ρ.move formals).zip (ρ.move matched) =
      (formals.zip matched).map (Prod.map ρ.move ρ.move) := List.zip_map
  rw [hzip]
  exact forM (fun (formal, arg) => bindFormal env formal arg.value) _

theorem depth (s : Session) : (ρ.session s).depth = s.depth := List.length_map _

theorem withInvocation {α β : Type} {f : α → β} {x : SessionM α} {y : SessionM β}
    (invocation : Invocation) (h : ρ.Carries f x y) :
    ρ.Carries f (SessionM.withInvocation invocation x)
      (SessionM.withInvocation (ρ.move invocation) y) := by
  refine get_bind fun s => ?_
  rw [depth]
  refine ite Iff.rfl (fail _)
    (bracket h (fun s => ⟨rfl, fun _ => rfl⟩) fun s => ⟨rfl, fun _ => ?_⟩)
  obtain ⟨_, _, _, _, _, _ | _⟩ := s <;> rfl

theorem catchReturn {x y : SessionM Value} (env : EnvId) (h : ρ.Carries ρ.move x y) :
    ρ.Carries ρ.move (SessionM.catchReturn env x) (SessionM.catchReturn env y) := by
  intro s
  obtain ⟨hsize, hrun⟩ := h s
  rcases hxs : x s with ⟨(e | ⟨target, value⟩ | _) | a, t⟩ <;> rw [hxs] at hsize hrun
  -- environments are not renamed, so both sides compare the same targets
  case error.returning =>
    by_cases htarget : target = env
    · subst htarget
      exact of_run (SessionM.catchReturn_run_caught hxs) hsize fun hs ht =>
        SessionM.catchReturn_run_caught (hrun hs ht)
    · have hpassed (v : Value) (value : Value) :
          (.error (.returning target v) : Except Interrupt Value) ≠
            .error (.returning env value) := by
        rintro h
        cases h
        exact htarget rfl
      exact of_run (SessionM.catchReturn_run_passed hxs (hpassed value)) hsize fun hs ht =>
        SessionM.catchReturn_run_passed (hrun hs ht) (hpassed (ρ.move value))
  all_goals
    exact of_run (SessionM.catchReturn_run_passed hxs nofun) hsize fun hs ht =>
      SessionM.catchReturn_run_passed (hrun hs ht) nofun

/-! ## Special forms that evaluate nothing -/

theorem requireArity (call : Call) (form : SpecialForm) (least most : Nat) :
    ρ.Carries id (SessionM.requireArity call form least most)
      (SessionM.requireArity (ρ.move call) form least most) := by
  have hlength : (ρ.move call).args.length = call.args.length := List.length_map _
  unfold SessionM.requireArity
  rw [hlength]
  exact ite Iff.rfl (fail _) (pure rfl)

theorem oneArg (call : Call) (form : SpecialForm) :
    ρ.Carries ρ.move (SessionM.oneArg call form) (SessionM.oneArg (ρ.move call) form) := by
  obtain ⟨identity, function, args⟩ := call
  match args with
  | [_] => exact pure rfl
  | [] => exact fail _
  | x :: y :: rest =>
    show ρ.Carries _ (SessionM.fail (arityError _ (x :: y :: rest).length _ _))
      (SessionM.fail (arityError _ (ρ.move (x :: y :: rest)).length _ _))
    rw [length_rename]
    exact fail _

theorem twoArgs (call : Call) (form : SpecialForm) :
    ρ.Carries (Prod.map ρ.move ρ.move) (SessionM.twoArgs call form)
      (SessionM.twoArgs (ρ.move call) form) := by
  obtain ⟨identity, function, args⟩ := call
  match args with
  | [_, _] => exact pure rfl
  | [] | [_] => exact fail _
  | x :: y :: z :: rest =>
    show ρ.Carries _ (SessionM.fail (arityError _ (x :: y :: z :: rest).length _ _))
      (SessionM.fail (arityError _ (ρ.move (x :: y :: z :: rest)).length _ _))
    rw [length_rename]
    exact fail _

theorem assignmentTarget (target : Value) :
    ρ.Carries id (SessionM.assignmentTarget target)
      (SessionM.assignmentTarget (ρ.move target)) := by
  have htype : (ρ.move target).typeName = target.typeName := typeName_rename
  have hstring : (ρ.move target).singleString? = target.singleString? := singleString?_rename
  unfold SessionM.assignmentTarget
  rw [htype]
  have hshape := ρ.reshaped target
  generalize ρ.move target = target' at *
  cases hshape with
  | symbol name => exact ite Iff.rfl (fail _) (pure rfl)
  | vector v =>
    dsimp only
    rw [hstring]
    split
    · exact pure rfl
    · exact fail _
  | _ => exact fail _

theorem makeFunction (call : Call) (env : EnvId) :
    ρ.Carries ρ.move (SessionM.makeFunction call env)
      (SessionM.makeFunction (ρ.move call) env) := by
  refine (twoArgs call .function).bind fun (formals, body) => ?_
  have hmake (formals : ArgList) : ρ.Carries ρ.move
      (do return Value.closure ⟨← SessionM.newIdentity, formals, body, env⟩)
      (do return Value.closure ⟨← SessionM.newIdentity, ρ.move formals, ρ.move body, env⟩) :=
    newIdentity.map fun _ => rename_closure _
  have htype : (ρ.move formals).typeName = formals.typeName := typeName_rename
  dsimp only [Prod.map]
  have hshape := ρ.reshaped formals
  generalize ρ.move formals = formals' at *
  cases hshape with
  | list args => exact bind (f := ρ.move) (pure rfl) hmake
  | null => exact bind (f := ρ.move) (pure rfl) hmake
  | _ =>
    dsimp only
    rw [htype]
    exact bind (f := ρ.move) (fail _) hmake

theorem bindingIsMissing (binding : Binding) :
    SessionM.bindingIsMissing (ρ.move binding) = SessionM.bindingIsMissing binding := by
  obtain ⟨value, defaultArg⟩ := binding
  show SessionM.bindingIsMissing ⟨ρ.move value, defaultArg⟩ = _
  have hshape := ρ.reshaped value
  generalize ρ.move value = value' at *
  cases hshape with
  | dots args => cases args <;> rfl
  | _ => rfl

theorem promiseIsMissing (p : Promise) :
    ρ.Carries id (SessionM.promiseIsMissing p) (SessionM.promiseIsMissing (ρ.move p)) := by
  obtain ⟨expr, state⟩ := p
  show ρ.Carries _ _ (SessionM.promiseIsMissing ⟨ρ.move expr, ρ.move state⟩)
  have hshape := ρ.reshaped expr
  generalize ρ.move expr = expr' at *
  cases hshape with
  | symbol inner =>
    obtain ⟨origin, underEvaluation⟩ | value := state
    · refine ite Iff.rfl (pure rfl) (bind (askHeap fun h => frame_move h origin) fun f => pure ?_)
      rw [get?_move]
      cases f.get? inner with
      | none => rfl
      | some binding => exact (bindingIsMissing binding).symm
    · exact pure rfl
  | _ => exact pure rfl

theorem isMissing (env : EnvId) (name : Symbol) :
    ρ.Carries id (SessionM.isMissing env name) (SessionM.isMissing env name) := by
  refine bind (askHeap fun h => frame_move h env) fun f => ?_
  rw [get?_move]
  cases f.get? name with
  | none => exact fail _
  | some binding =>
    refine ite (by rw [bindingIsMissing]) (pure rfl) ?_
    obtain ⟨value, defaultArg⟩ := binding
    rw [show (ρ.move (⟨value, defaultArg⟩ : Binding)).value = ρ.move value from rfl]
    dsimp only
    have hshape := ρ.reshaped value
    generalize ρ.move value = value' at *
    cases hshape with
    | promise p =>
      refine get_bind_of fun s =>
        ⟨(ρ.move (s.promises.get? p)).elim (return false) SessionM.promiseIsMissing, ?_,
          fun hs => by
            have hget : (ρ.session s).promises.get? (ρ.promise p) =
              ρ.move (s.promises.get? p) := ρ.get? hs p
            rw [hget]
            cases s.promises.get? p <;> rfl⟩
      cases s.promises.get? p with
      | none => exact pure rfl
      | some cell => exact promiseIsMissing cell
    | _ => exact pure rfl

theorem missingForm (call : Call) (env : EnvId) :
    ρ.Carries ρ.move (SessionM.missingForm call env) (SessionM.missingForm (ρ.move call) env) := by
  refine (oneArg call .missing).bind fun arg => ?_
  rw [nameText?_rename]
  split
  · exact (isMissing env _).bind fun found => newLogical found
  · exact fail _

/-! ## Invocations and methods tables -/

theorem invocationOf? (s : Session) (env : EnvId) :
    (ρ.session s).invocationOf? env = ρ.move (s.invocationOf? env) :=
  List.find?_map

theorem methodsTable (env : EnvId) :
    ρ.Carries id (SessionM.methodsTable env) (SessionM.methodsTable env) :=
  askSame fun h => methodsTable_move h env

theorem requireMethodsTable (env : EnvId) :
    ρ.Carries id (SessionM.requireMethodsTable env) (SessionM.requireMethodsTable env) := by
  refine (methodsTable env).bind fun table => ?_
  cases table with
  | some table => exact pure rfl
  | none =>
    refine get_bind fun s => (allocate (some s.baseEnv)).bind fun table => ?_
    exact (bindIn env methodsTableName (.environment table)).bind fun _ => pure rfl

theorem registerMethod (generic className : String) (method : Value) (definitionEnv : EnvId) :
    ρ.Carries id (SessionM.registerMethod generic className method definitionEnv)
      (SessionM.registerMethod generic className (ρ.move method) definitionEnv) :=
  (requireMethodsTable definitionEnv).bind fun table => bindIn table _ method

/-! ## Namespaces -/

theorem loadNamespace (name : Symbol) :
    ρ.Carries id (SessionM.loadNamespace name) (SessionM.loadNamespace name) := by
  refine modifyGet (fun _ => le_rfl) fun s _ _ => ?_
  have hload : s.namespaces.load (ρ.move s.heap) name =
      ((s.namespaces.load s.heap name).1, (s.namespaces.load s.heap name).2.1,
        ρ.move (s.namespaces.load s.heap name).2.2) := by
    unfold Namespaces.load
    rw [allocate_move]
    cases s.namespaces.get? name <;> rfl
  exact congrArg (fun loaded : Namespace × Namespaces × Heap =>
    (loaded.1, { ρ.session s with namespaces := loaded.2.1, heap := loaded.2.2 })) hload

theorem namespaceOf (value : Value) :
    ρ.Carries id (SessionM.namespaceOf value) (SessionM.namespaceOf (ρ.move value)) := by
  have hname : (ρ.move value).nameText? = value.nameText? := nameText?_rename
  have hshape := ρ.reshaped value
  generalize ρ.move value = value' at *
  cases hshape with
  | environment env =>
    refine get_bind fun s => ?_
    rw [show (ρ.session s).namespaces = s.namespaces from rfl]
    cases s.namespaces.byEnv? env with
    | some ns => exact pure rfl
    | none => exact fail _
  | _ =>
    unfold SessionM.namespaceOf
    dsimp only
    rw [hname]
    split
    · exact loadNamespace _
    · exact fail _

theorem namespaceName (ns : Namespace) :
    ρ.Carries ρ.move (SessionM.namespaceName ns) (SessionM.namespaceName ns) := by
  refine get_bind fun s => ite Iff.rfl (newString _) ((newString "name").bind fun tag => ?_)
  have hattributes : ρ.move (AttributeList.set (.empty : Attributes) ⟨"names"⟩ tag) =
      AttributeList.set .empty ⟨"names"⟩ (ρ.move tag) :=
    (rename_set (.empty : Attributes) ⟨"names"⟩ tag).symm
  rw [← hattributes]
  exact newVector _ _

/-! ## Collections and the record of loops -/

theorem rootEnvs (s : Session) : (ρ.session s).rootEnvs = s.rootEnvs := by
  have hstack : (s.stack.map ρ.move).flatMap Invocation.envs = s.stack.flatMap Invocation.envs :=
    List.flatMap_map ..
  exact congrArg (fun envs => s.baseEnv :: s.globalEnv :: (s.namespaces.environments ++ envs))
    hstack

theorem rootValues (s : Session) : (ρ.session s).rootValues = ρ.move s.rootValues := by
  have hvalues (i : Invocation) : (ρ.move i).values = ρ.move i.values := by
    have hargs : (ρ.move i.args).map (·.value) = ρ.move (i.args.map (·.value)) := by
      show (i.args.map _).map _ = (i.args.map _).map _
      rw [List.map_map, List.map_map]
      rfl
    show Value.closure (ρ.move i.closure) :: .call (ρ.move i.call) ::
      (ρ.move i.args).map (·.value) = _
    rw [hargs, ← rename_closure, ← rename_call]
    rfl
  have hstack : (ρ.move s.stack).flatMap Invocation.values =
      ρ.move (s.stack.flatMap Invocation.values) := by
    show (s.stack.map _).flatMap _ = (s.stack.flatMap _).map _
    rw [List.flatMap_map, List.map_flatMap]
    exact List.flatMap_congr fun i _ => hvalues i
  have hcalls : (ρ.move s.loops).calls.map Value.call = ρ.move (s.loops.calls.map .call) := by
    show ((s.loops.instances.map _).map _).map _ = ((s.loops.instances.map _).map _).map _
    simp only [List.map_map]
    exact List.map_congr_left fun known _ => (rename_call known.call).symm
  show ρ.move s.preserved ++ (ρ.move s.stack).flatMap Invocation.values ++
    (ρ.move s.loops).calls.map Value.call = _
  rw [hstack, hcalls]
  simp only [Session.rootValues, rename_append]

theorem collect (extra : List Value) :
    ρ.Carries id (SessionM.collect extra) (SessionM.collect (ρ.move extra)) := by
  intro s
  have hvalues : ρ.move extra ++ (ρ.session s).rootValues = ρ.move (extra ++ s.rootValues) := by
    rw [rootValues]
    exact (rename_append _ _).symm
  have hmoved (hs : ρ.Covers s.promises) :
      (ρ.session s).heap.collect (ρ.session s).promises (ρ.session s).rootEnvs
      (ρ.move extra ++ (ρ.session s).rootValues) =
      (s.heap.collect s.promises s.rootEnvs (extra ++ s.rootValues)).map
        fun result => (result.1, ρ.move result.2) := by
    rw [hvalues, rootEnvs]
    exact collect_move hs s.heap s.rootEnvs (extra ++ s.rootValues)
  cases hcollect : s.heap.collect s.promises s.rootEnvs (extra ++ s.rootValues) with
  | none =>
    rw [hcollect] at hmoved
    exact of_run (SessionM.collect_run_refused hcollect) le_rfl fun hs _ =>
      SessionM.collect_run_refused (hmoved hs)
  | some result =>
    rw [hcollect] at hmoved
    have hrun : SessionM.collect extra s = (.ok result.1, { s with heap := result.2 }) :=
      SessionM.collect_run hcollect
    exact of_run (t := { s with heap := result.2 }) hrun le_rfl fun hs _ =>
      SessionM.collect_run (hmoved hs)

theorem introspect (query : Introspection) (args : ArgList) (env : EnvId) :
    ρ.Carries ρ.move (SessionM.introspect query args env)
      (SessionM.introspect query (ρ.move args) env) := by
  cases query with
  | depth =>
    refine get_bind fun s => ?_
    rw [depth]
    exact newDoubles _
  | arguments => exact pure (rename_listValue args)
  | collect => exact (collect []).bind fun freed => newDoubles _
  | frame =>
    refine get_bind fun s => ?_
    rw [invocationOf?]
    cases s.invocationOf? env with
    | none => exact pure rfl
    | some i =>
      refine pure ?_
      have htagged (name : Symbol) (v : Value) :
          ρ.move (Arg.tagged name v) = .tagged name (ρ.move v) := rfl
      simp only [SessionM.describeInvocation, rename_listValue, rename_cons, htagged, rename_call]
      rfl

theorem setLoopStatus (call : Call) (status : LoopStatus) :
    ρ.Carries id (SessionM.setLoopStatus call status)
      (SessionM.setLoopStatus (ρ.move call) status) :=
  modifyGet (fun _ => le_rfl) fun s _ _ =>
    congrArg (fun loops => ((), { ρ.session s with loops })) (set_rename s.loops status)

theorem count (change : LoopStats → LoopStats) :
    ρ.Carries id (SessionM.count change) (SessionM.count change) :=
  modifyGet (fun _ => le_rfl) fun _ _ _ => rfl

end CallByNeed.Relocation.Carries
