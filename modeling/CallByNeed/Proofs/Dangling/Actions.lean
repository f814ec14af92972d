import CallByNeed.Proofs.Dangling.Answers
import CallByNeed.Proofs.Dangling.Outcomes

/-!
# Actions are safe

The actions that evaluate nothing.  A look outward from an environment that is
there comes to the outermost frame without meeting a stale reference
(`Safe.scopeWithin`), and what it finds is admitted.  New values and promises are
made of admitted ones, and nothing else is ever bound.
-/

namespace CallByNeed.Session

variable {s : Session} {env id : EnvId} {name : Symbol} {v : Value} {args : ArgList}

/-! ## Looking at frames -/

section

variable (hs : s.Safe)
include hs

omit hs in
theorem reads_frame (henv : s.heap.contains env = true) :
    Reads s (SessionM.askHeap fun h => h.frame env) fun f => s.heap.frame? env = some f := by
  obtain ⟨f, hf⟩ := Option.isSome_iff_exists.1 henv
  have hframe : s.heap.frame env = .ok f := by simp only [Heap.frame, hf]
  exact .askHeap_ok hframe hf

theorem Safe.parent {f : Frame} (hf : s.heap.frame? env = some f) :
    ∀ id ∈ f.parent, s.heap.contains id = true :=
  fun _ hid => hs.parents hf hid

/-- The scope of an environment that is there does not break off. -/
theorem Safe.scopeWithin (fuel : Nat) {start : Option EnvId}
    (hstart : ∀ id ∈ start, s.heap.contains id = true) :
    (s.heap.scopeWithin fuel start).dangling = none := by
  induction fuel generalizing start with
  | zero => cases start <;> rfl
  | succ fuel ih =>
    cases start with
    | none => rfl
    | some id =>
      obtain ⟨f, hf⟩ := Option.isSome_iff_exists.1 (hstart id rfl)
      simp only [Heap.scopeWithin, hf]
      exact ih (hs.parent hf)

/-- Whoever is found to bind a name is there, and what it binds it to is admitted. -/
theorem Safe.owner? {start : Option EnvId} (hstart : ∀ id ∈ start, s.heap.contains id = true)
    (name : Symbol) :
    ∃ found, (s.heap.scopeFrom start).owner? name = .ok found ∧
      ∀ owner ∈ found, s.heap.contains owner.1 = true ∧ s.Admits owner.2.value := by
  have hdangling := hs.scopeWithin (s.heap.slots.size + 1) hstart
  obtain ⟨found, hfound⟩ : ∃ found, (s.heap.scopeFrom start).owner? name = .ok found := by
    unfold Heap.scopeFrom Scope.owner?
    rw [hdangling]
    generalize List.findSome? _ _ = found
    cases found <;> exact ⟨_, rfl⟩
  refine ⟨found, hfound, fun owner howner => ?_⟩
  cases howner
  obtain ⟨f, hf, hget⟩ := Heap.frame?_of_owner? hfound
  exact ⟨Heap.contains_of_frame? hf, hs.binding hf hget⟩

theorem Safe.find (henv : s.heap.contains env = true) (name : Symbol) :
    ∃ found, s.heap.find env name = .ok found ∧
      ∀ owner ∈ found, s.heap.contains owner.1 = true ∧ s.Admits owner.2 := by
  have hstart : ∀ id ∈ some env, s.heap.contains id = true := by
    intro id hid
    cases hid
    exact henv
  obtain ⟨found, hfound, howner⟩ := hs.owner? hstart name
  refine ⟨found.map fun owner => (owner.1, owner.2.value), ?_, fun owner hmem => ?_⟩
  · simp only [Heap.find, Heap.scope, hfound]
    rfl
  · obtain ⟨⟨id, b⟩, hb, rfl⟩ := Option.map_eq_some_iff.1 hmem
    exact howner _ hb

theorem reads_find (henv : s.heap.contains env = true) (name : Symbol) :
    Reads s (SessionM.askHeap fun h => h.find env name) fun found =>
      ∀ owner ∈ found, s.heap.contains owner.1 = true ∧ s.Admits owner.2 := by
  obtain ⟨found, hfound, howner⟩ := hs.find henv name
  exact .askHeap_ok hfound howner

theorem reads_lookup (henv : s.heap.contains env = true) (name : Symbol) :
    Reads s (SessionM.askHeap fun h => h.lookup env name) s.Admits := by
  obtain ⟨found, hfound, howner⟩ := hs.find henv name
  cases found with
  | none =>
    have hlookup : s.heap.lookup env name = .error (.unboundSymbol name) := by
      simp only [Heap.lookup, hfound]
      rfl
    exact .askHeap_error hlookup rfl
  | some owner =>
    have hlookup : s.heap.lookup env name = .ok owner.2 := by
      simp only [Heap.lookup, hfound]
      rfl
    exact .askHeap_ok hlookup (howner owner rfl).2

theorem Safe.getLocal (henv : s.heap.contains env = true) (name : Symbol) :
    ∃ found, s.heap.getLocal env name = .ok found ∧ ∀ v ∈ found, s.Admits v := by
  obtain ⟨f, hf⟩ := Option.isSome_iff_exists.1 henv
  have hframe : s.heap.frame env = .ok f := by simp only [Heap.frame, hf]
  refine ⟨(f.get? name).map (·.value), by simp only [Heap.getLocal, hframe]; rfl, fun v hv => ?_⟩
  obtain ⟨b, hb, rfl⟩ := Option.map_eq_some_iff.1 hv
  exact hs.binding hf hb

theorem reads_getLocal (henv : s.heap.contains env = true) (name : Symbol) :
    Reads s (SessionM.askHeap fun h => h.getLocal env name) fun found =>
      ∀ v ∈ found, s.Admits v := by
  obtain ⟨found, hfound, hadmits⟩ := hs.getLocal henv name
  exact .askHeap_ok hfound hadmits

theorem reads_methodsTable (henv : s.heap.contains env = true) :
    Reads s (SessionM.methodsTable env) fun table => ∀ id ∈ table, s.heap.contains id = true := by
  obtain ⟨found, hfound, hadmits⟩ := hs.getLocal henv methodsTableName
  by_cases htable : ∃ id, found = some (.environment id)
  · obtain ⟨table, rfl⟩ := htable
    refine .askHeap_ok (a := some table) (by simp only [Heap.methodsTable, hfound]; rfl) ?_
    intro id hid
    cases hid
    exact admits_environment.1 (hadmits _ rfl)
  · refine .askHeap_ok (a := none) ?_ (by simp)
    simp only [Heap.methodsTable, hfound]
    cases found with
    | none => rfl
    | some value =>
      cases value with
      | environment id => exact absurd ⟨id, rfl⟩ htable
      | _ => rfl

theorem reads_nonLocalTarget (henv : s.heap.contains env = true) (name : Symbol) :
    Reads s (SessionM.askHeap fun h => h.nonLocalTarget env name s.globalEnv) fun target =>
      s.heap.contains target = true := by
  obtain ⟨f, hf⟩ := Option.isSome_iff_exists.1 henv
  have hparent : s.heap.parent env = .ok f.parent := by
    simp only [Heap.parent, Heap.frame, hf]
    rfl
  obtain ⟨found, hfound, howner⟩ := hs.owner? (hs.parent hf) name
  have hrun : s.heap.nonLocalTarget env name s.globalEnv =
      .ok ((found.map Prod.fst).getD s.globalEnv) := by
    simp only [Heap.nonLocalTarget, hparent]
    show (s.heap.scopeFrom f.parent).owner? name >>= _ = _
    rw [hfound]
    cases found <;> rfl
  refine .askHeap_ok hrun ?_
  cases found with
  | none => exact hs.global
  | some owner => exact (howner owner rfl).1

/-! ## Writing frames -/

theorem safe_allocate {parent : EnvId} (hparent : s.heap.contains parent = true) :
    SafeAt s (SessionM.allocate (some parent)) fun t env => t.heap.contains env = true := by
  refine .modifyGet (hs.onward_allocate fun id hid => ?_) (hs.contains_allocate _)
  cases hid
  exact hparent

theorem safe_write (henv : s.heap.contains env = true) (name : Symbol) {binding : Binding}
    (hvalue : s.Admits binding.value) :
    SafeAt s (SessionM.onHeap (HeapM.modifyFrame env (·.bind name binding))) fun _ _ => True := by
  refine .of_ok (a := ()) ?_ (hs.onward_bound henv name hvalue) trivial
  rw [SessionM.onHeap_modifyFrame, if_pos henv]

theorem safe_bindIn (henv : s.heap.contains env = true) (name : Symbol) (hv : s.Admits v) :
    SafeAt s (SessionM.bindIn env name v) fun _ _ => True :=
  safe_write hs henv name hv

theorem safe_assignNonLocal (henv : s.heap.contains env = true) (name : Symbol)
    (hv : s.Admits v) :
    SafeAt s (SessionM.onHeap (HeapM.assignNonLocal env name v s.globalEnv)) fun _ _ => True := by
  rw [SessionM.onHeap_assignNonLocal]
  refine (reads_nonLocalTarget hs henv name).andThen hs fun target htarget => ?_
  exact (safe_bindIn hs htarget name hv).bind fun _ _ ht _ => .pure ht.safe trivial

theorem safe_requireMethodsTable (henv : s.heap.contains env = true) :
    SafeAt s (SessionM.requireMethodsTable env) fun t table => t.heap.contains table = true := by
  refine (reads_methodsTable hs henv).andThen hs fun table htable => ?_
  cases table with
  | some table => exact .pure hs (htable table rfl)
  | none =>
    refine (Reads.get (P := (s = ·)) rfl).andThen hs fun _ hsame => ?_
    subst hsame
    refine (safe_allocate hs hs.base).bind fun table t ht htable => ?_
    refine (safe_bindIn ht.safe (ht.live henv) _ (admits_environment.2 htable)).bind
      fun _ u hu _ => ?_
    exact .pure hu.safe (hu.live htable)

theorem safe_registerMethod (generic className : String) (hv : s.Admits v)
    (henv : s.heap.contains env = true) :
    SafeAt s (SessionM.registerMethod generic className v env) fun _ _ => True :=
  (safe_requireMethodsTable hs henv).bind fun _ _ ht htable =>
    safe_bindIn ht.safe htable _ (ht.admits hv)

/-! ## New values -/

theorem safe_newIdentity : SafeAt s SessionM.newIdentity fun _ _ => True :=
  .modifyGet (hs.onward_record fun _ => hs.call_mem_loops) trivial

theorem safe_newVector (elements : Elements) {attributes : Attributes}
    (h : s.AdmitsAttributes attributes) :
    SafeAt s (SessionM.newVector elements attributes) Admits :=
  (safe_newIdentity hs).bind fun _ _ ht _ =>
    .pure ht.safe (admits_vector.2 (ht.attributes h))

theorem safe_newBare (elements : Elements) : SafeAt s (SessionM.newVector elements .empty) Admits :=
  safe_newVector hs elements admitsAttributes_empty

theorem safe_newCall (hv : s.Admits v) (hargs : s.AdmitsArgs args) :
    SafeAt s (SessionM.newCall v args) fun t call => t.Admits (.call call) :=
  (safe_newIdentity hs).bind fun _ _ ht _ =>
    .pure ht.safe (admits_call.2 ⟨ht.admits hv, ht.args hargs⟩)

theorem safe_newPromise {expr : Value} {state : PromiseState}
    (h : s.AdmitsPromise ⟨expr, state⟩) : SafeAt s (SessionM.newPromise expr state) Admits := by
  refine .modifyGet (hs.onward_add h) ((hs.onward_add h).admits ?_)
  -- before there was no promise under this reference
  refine admits_promise.2 fun p hp => ?_
  simp [PromiseStore.add, PromiseStore.get?] at hp

theorem safe_newWaiting (hv : s.Admits v) (henv : s.heap.contains env = true) :
    SafeAt s (SessionM.newWaiting v env) Admits := by
  refine safe_newPromise hs ⟨hv, fun h => ?_, fun h => (nomatch h)⟩
  cases h
  exact henv

theorem safe_newKept {expr : Value} (hexpr : s.Admits expr) (hv : s.Admits v) :
    SafeAt s (SessionM.newKept expr v) Admits := by
  refine safe_newPromise hs ⟨hexpr, fun h => (nomatch h), fun h => ?_⟩
  cases h
  exact hv

theorem safe_deliver {r : Except EvalError Answer} (hplain : Plain r)
    (h : Yields s.AdmitsAnswer r) : SafeAt s (SessionM.deliver r) Admits := by
  cases r with
  | error e => exact .fail hs (hplain.staleless rfl)
  | ok answer =>
    have hanswer := h answer rfl
    cases answer with
    | existing value => exact .pure hs hanswer
    | fresh elements attributes => exact safe_newVector hs elements hanswer

/-! ## Arguments -/

theorem safe_suspend (hv : s.Admits v) (henv : s.heap.contains env = true) :
    SafeAt s (SessionM.suspend v env) Admits := by
  unfold SessionM.suspend
  split
  · exact .pure hs hv
  · refine .ite (fun _ => .pure hs hv) fun _ => ?_
    unfold SessionM.promiseOf
    split
    · exact safe_newWaiting hs hv henv
    · exact safe_newWaiting hs hv henv
    · exact safe_newKept hs hv hv

theorem reads_ellipsisArgs (henv : s.heap.contains env = true) :
    Reads s (SessionM.ellipsisArgs env) s.AdmitsArgs := by
  refine (reads_find hs henv .ellipsis).bind fun found hfound => ?_
  split
  · exact .pure admitsArgs_nil
  · exact .pure (admits_dots.1 (hfound _ rfl).2)
  · split
    · exact .pure admitsArgs_nil
    · exact .fail rfl

theorem safe_suspendArgs (hargs : s.AdmitsArgs args) (henv : s.heap.contains env = true) :
    SafeAt s (SessionM.suspendArgs args env) AdmitsArgs := by
  induction args generalizing s with
  | nil => exact .pure hs admitsArgs_nil
  | cons arg rest ih =>
    rw [admitsArgs_cons] at hargs
    have hrest {promised : ArgList} {t : Session} (ht : s.Onward t)
        (hpromised : t.AdmitsArgs promised) :
        SafeAt t (do return promised ++ (← SessionM.suspendArgs rest env)) AdmitsArgs :=
      (ih ht.safe (ht.args hargs.2) (ht.live henv)).bind fun more u hu hmore =>
        .pure hu.safe (admitsArgs_append.2 ⟨hu.args hpromised, hmore⟩)
    refine .ite (fun _ => ?_) fun _ => ?_
    · refine (reads_ellipsisArgs hs henv).andThen hs fun dots hdots => ?_
      refine SafeAt.bind (P := AdmitsArgs) (.mapM hs (fun h => h.admits) ?_) fun promised t ht =>
        hrest ht
      intro dot hdot t ht
      exact (safe_suspend ht.safe (ht.admits (hdots dot hdot)) (ht.live henv)).bind
        fun value u hu hvalue => .pure hu.safe hvalue
    · refine (safe_suspend hs hargs.1 henv).bind fun value t ht hvalue => ?_
      refine (SafeAt.pure ht.safe ?_).bind fun promised u hu hpromised =>
        hrest (ht.trans hu) hpromised
      exact admitsArgs_cons.2 ⟨hvalue, admitsArgs_nil⟩

/-! ## The frame of an invocation -/

theorem safe_bindFormal (henv : s.heap.contains env = true) {formal : Arg Value}
    (hformal : s.Admits formal.value) (hv : s.Admits v) :
    SafeAt s (SessionM.bindFormal env formal v) fun _ _ => True := by
  unfold SessionM.bindFormal
  split
  · exact .pure hs trivial
  · refine .ite (fun _ => ?_) fun _ => safe_bindIn hs henv _ hv
    refine (safe_newWaiting hs hformal henv).bind fun promise t ht hpromise => ?_
    exact safe_write ht.safe (ht.live henv) _ hpromise

theorem safe_bindArguments (henv : s.heap.contains env = true) {formals : ArgList}
    (hformals : s.AdmitsArgs formals) (hargs : s.AdmitsArgs args) :
    SafeAt s (SessionM.bindArguments formals args env) fun _ _ => True := by
  refine (Reads.ofExcept (plain_matchFormals _ _ _)
    (yields_matchFormals formals hargs true)).andThen hs fun matched hmatched => ?_
  refine .forM hs fun (formal, arg) hmem t ht => ?_
  obtain ⟨hformal, harg⟩ := List.of_mem_zip hmem
  exact safe_bindFormal ht.safe (ht.live henv) (ht.admits (hformals formal hformal))
    (ht.admits (hmatched arg harg))

/-! ## Special forms that evaluate nothing -/

omit hs in
theorem reads_requireArity (call : Call) (form : SpecialForm) (least most : Nat) :
    Reads s (SessionM.requireArity call form least most) fun _ => True := by
  unfold SessionM.requireArity
  split
  · exact .fail rfl
  · exact .pure trivial

omit hs in
theorem reads_oneArg {call : Call} (hargs : s.AdmitsArgs call.args) (form : SpecialForm) :
    Reads s (SessionM.oneArg call form) s.Admits := by
  unfold SessionM.oneArg
  split
  · rename_i x hx
    rw [hx, admitsArgs_cons] at hargs
    exact .pure hargs.1
  · exact .fail rfl

omit hs in
theorem reads_twoArgs {call : Call} (hargs : s.AdmitsArgs call.args) (form : SpecialForm) :
    Reads s (SessionM.twoArgs call form) fun values => s.Admits values.1 ∧ s.Admits values.2 := by
  unfold SessionM.twoArgs
  split
  · rename_i x y hxy
    rw [hxy, admitsArgs_cons, admitsArgs_cons] at hargs
    exact .pure ⟨hargs.1, hargs.2.1⟩
  · exact .fail rfl

omit hs in
theorem reads_assignmentTarget (target : Value) :
    Reads s (SessionM.assignmentTarget target) fun _ => True := by
  unfold SessionM.assignmentTarget
  split
  · split
    · exact .fail rfl
    · exact .pure trivial
  · split
    · exact .pure trivial
    · exact .fail rfl

theorem safe_makeFunction {call : Call} (hargs : s.AdmitsArgs call.args)
    (henv : s.heap.contains env = true) : SafeAt s (SessionM.makeFunction call env) Admits := by
  refine (reads_twoArgs hargs .function).andThen hs fun (formals, body) ⟨hformals, hbody⟩ => ?_
  have hmake (formals : ArgList) (hformals : s.AdmitsArgs formals) :
      SafeAt s (do return .closure ⟨← SessionM.newIdentity, formals, body, env⟩) Admits :=
    (safe_newIdentity hs).bind fun _ t ht _ =>
      .pure ht.safe (admits_closure.2 ⟨ht.live henv, ht.args hformals, ht.admits hbody⟩)
  cases formals with
  | list formals =>
    exact (Reads.pure (admits_list.1 hformals)).andThen hs hmake
  | null => exact (Reads.pure admitsArgs_nil).andThen hs hmake
  | _ => exact (Reads.fail rfl).andThen hs hmake

omit hs in
theorem reads_promiseIsMissing {p : Promise} (hp : s.AdmitsPromise p) :
    Reads s (SessionM.promiseIsMissing p) fun _ => True := by
  unfold SessionM.promiseIsMissing
  split
  · rename_i henv
    split
    · exact .pure trivial
    · exact (reads_frame (hp.env henv)).bind fun _ _ => .pure trivial
  · exact .pure trivial

theorem reads_isMissing (henv : s.heap.contains env = true) (name : Symbol) :
    Reads s (SessionM.isMissing env name) fun _ => True := by
  refine (reads_frame henv).bind fun frame hframe => ?_
  split
  · exact .fail rfl
  · rename_i binding hbinding
    have hvalue := hs.binding hframe hbinding
    split
    · exact .pure trivial
    · split
      · rename_i id hid
        rw [hid] at hvalue
        refine (Reads.get (P := (s = ·)) rfl).bind fun _ hsame => ?_
        subst hsame
        split
        · rename_i p hp
          exact reads_promiseIsMissing (admits_promise.1 hvalue p hp)
        · exact .pure trivial
      · exact .pure trivial

theorem safe_missingForm {call : Call} (hargs : s.AdmitsArgs call.args)
    (henv : s.heap.contains env = true) : SafeAt s (SessionM.missingForm call env) Admits := by
  refine (reads_oneArg hargs .missing).andThen hs fun arg _ => ?_
  split
  · exact (reads_isMissing hs henv _).andThen hs fun _ _ => safe_newBare hs _
  · exact .fail hs rfl

/-! ## The arguments of a builtin -/

omit hs in
theorem reads_argsByName (hargs : s.AdmitsArgs args) (formals : List String) :
    Reads s (SessionM.ofExcept (argsByName args formals)) fun values => ∀ v ∈ values, s.Admits v :=
  .ofExcept (plain_argsByName _ _) (yields_argsByName hargs _)

omit hs in
theorem reads_requireArg (builtin : String) {values : List Value}
    (hvalues : ∀ v ∈ values, s.Admits v) (i : Nat) :
    Reads s (SessionM.ofExcept (requireArg builtin values i)) s.Admits :=
  .ofExcept (plain_requireArg _ _ _) (yields_requireArg _ hvalues i)

omit hs in
theorem reads_nameArg (v : Value) (what : String) :
    Reads s (SessionM.ofExcept (nameArg v what)) fun _ => True :=
  .ofExcept (plain_nameArg _ _) fun _ _ => trivial

omit hs in
theorem reads_onlyArg (hargs : s.AdmitsArgs args) (builtin formal : String) :
    Reads s (do
      let values ← SessionM.ofExcept (argsByName args [formal])
      SessionM.ofExcept (requireArg builtin values 0)) s.Admits :=
  (reads_argsByName hargs _).bind fun _ hvalues => reads_requireArg _ hvalues 0

omit hs in
/-- An argument that stands for an environment may be left out; then it is the one of the caller. -/
theorem reads_environmentArg (henv : s.heap.contains env = true) {values : List Value}
    (hvalues : ∀ v ∈ values, s.Admits v) (i : Nat) :
    Reads s (SessionM.ofExcept (environmentOr env (values[i]?.getD .missingArg))) fun id =>
      s.heap.contains id = true := by
  have hgiven : s.Admits (values[i]?.getD .missingArg) := by
    cases hvalue : values[i]? with
    | none => exact admits_missingArg
    | some value => exact hvalues value (List.mem_of_getElem? hvalue)
  exact .ofExcept (plain_environmentOr _ _) (yields_environmentOr henv hgiven)

/-! ## Namespaces and the state of the session -/

theorem safe_loadNamespace (name : Symbol) :
    SafeAt s (SessionM.loadNamespace name) fun t ns => t.heap.contains ns.env = true :=
  .modifyGet (hs.onward_load name).1 (hs.onward_load name).2

theorem Safe.registered? {name : String} {id : EnvId}
    (h : s.namespaces.registered? name = some id) : s.heap.contains id = true := by
  unfold Namespaces.registered? at h
  split at h
  · cases h
  · obtain ⟨ns, hns, rfl⟩ := Option.map_eq_some_iff.1 h
    exact hs.namespaceEnv hns

theorem safe_namespaceOf (v : Value) : SafeAt s (SessionM.namespaceOf v) fun _ _ => True := by
  unfold SessionM.namespaceOf
  split
  · refine (Reads.get (P := fun _ => True) trivial).andThen hs fun _ _ => ?_
    split
    · exact .pure hs trivial
    · exact .fail hs rfl
  · split
    · exact (safe_loadNamespace hs _).weaken fun _ _ _ _ => trivial
    · exact .fail hs rfl

theorem safe_namespaceName (ns : Namespace) : SafeAt s (SessionM.namespaceName ns) Admits := by
  refine (Reads.get (P := fun _ => True) trivial).andThen hs fun _ _ => ?_
  refine .ite (fun _ => safe_newBare hs _) fun _ => ?_
  refine (safe_newBare hs _).bind fun tag t ht htag => ?_
  exact safe_newVector ht.safe _ (admitsAttributes_empty.set _ htag)

theorem safe_introspect {query : Introspection} (hquery : query ≠ .collect)
    (hargs : s.AdmitsArgs args) (env : EnvId) :
    SafeAt s (SessionM.introspect query args env) Admits := by
  cases query with
  | depth =>
    exact (Reads.get (P := fun _ => True) trivial).andThen hs fun _ _ => safe_newBare hs _
  | arguments => exact .pure hs (admits_list.2 hargs)
  | collect => exact absurd rfl hquery
  | frame =>
    refine (Reads.get (P := (s = ·)) rfl).andThen hs fun _ hsame => ?_
    subst hsame
    split
    · rename_i i hi
      obtain ⟨henv, hcaller, hclosure, hcall, hargs⟩ :=
        hs.invocation (List.mem_of_find?_eq_some hi)
      refine .pure hs (admits_list.2 ?_)
      simp only [admitsArgs_cons, admitsArgs_nil, and_true]
      exact ⟨admits_environment.2 henv, admits_environment.2 hcaller,
        admits_list.2 (admits_closure.1 hclosure).2.1, hcall, admits_list.2 hargs⟩
    · exact .pure hs admits_null

end

end CallByNeed.Session
