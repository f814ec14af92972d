import CallByNeed.Proofs.Arguments.Passing

/-!
# Omitted arguments

The frame of an invocation is filled one formal after the other, so what a formal
is bound to is what the last one of its name was assigned, or a promise of its
default expression (`Session.Enters`).  A formal to which nothing was assigned, or
an omitted argument, reports itself missing; one that got a promise whose value is
known does not, whatever the value is.

Together with what is passed on (`Session.Passes`, `Session.Wraps`) this says what
becomes of an omitted argument on every way into a closure
(`Session.omitted_arguments`).
-/

namespace CallByNeed

open Matching SessionM

variable {s t u : Session} {env : EnvId} {name : Symbol} {v : Value}

namespace Session

/-- The frame binds the formal to its default, which waits in that same frame, if it got nothing and
    has one, and otherwise to what it got. -/
def Enters (t : Session) (env : EnvId) (name : Symbol) (default v : Value) : Prop :=
  ∃ f b, t.heap.frame? env = some f ∧ f.get? name = some b ∧
    if v.isMissingArg && !default.isMissingArg then
      b.defaultArg = true ∧ ∃ id, b.value = .promise id ∧
        t.promises.get? id = some ⟨default, .waiting env false⟩
    else b = ⟨v, false⟩

/-- The frame is there still, and what it binds the name to has not changed. -/
def Leaves (s t : Session) (env : EnvId) (name : Symbol) : Prop :=
  ∀ ⦃f⦄, s.heap.frame? env = some f → ∃ g, t.heap.frame? env = some g ∧ g.get? name = f.get? name

theorem Leaves.refl (s : Session) (env : EnvId) (name : Symbol) : s.Leaves s env name :=
  fun f hf => ⟨f, hf, rfl⟩

theorem Leaves.trans (h₁ : s.Leaves t env name) (h₂ : t.Leaves u env name) :
    s.Leaves u env name := by
  intro f hf
  obtain ⟨g, hg, hsame⟩ := h₁ hf
  obtain ⟨g', hg', hsame'⟩ := h₂ hg
  exact ⟨g', hg', hsame'.trans hsame⟩

theorem Leaves.bound {other : Symbol} (hlive : s.heap.contains env = true) (hother : name ≠ other)
    (b : Binding) : s.Leaves (s.bound env other b) env name := by
  refine fun f hf => ⟨f.bind other b, ?_, Frame.get?_bind_of_ne _ _ hother⟩
  rw [frame?_bound hlive, if_pos rfl, hf, Option.map_some]

theorem Enters.leaves {default : Value} (h : s.Enters env name default v)
    (hleaves : s.Leaves t env name) (hcells : s.KeepsCells t) : t.Enters env name default v := by
  obtain ⟨f, b, hf, hb, hbinding⟩ := h
  obtain ⟨g, hg, hsame⟩ := hleaves hf
  refine ⟨g, b, hg, hsame.trans hb, ?_⟩
  split at hbinding
  · rename_i hdefault
    rw [if_pos hdefault]
    obtain ⟨hmark, id, hid, hp⟩ := hbinding
    exact ⟨hmark, id, hid, hcells hp⟩
  · rename_i hdefault
    rwa [if_neg hdefault]

end Session

open Session

namespace SessionM

/-! ## Filling a frame -/

theorem bindFormal_run (hlive : s.heap.contains env = true) (formal : Arg Value) (v : Value) :
    ∃ t, bindFormal env formal v s = (.ok (), t) ∧ t.heap.contains env = true ∧ s.KeepsCells t ∧
      (∀ name, formal.tag ≠ some name → s.Leaves t env name) ∧
      ∀ name, formal.tag = some name → t.Enters env name formal.value v := by
  unfold bindFormal
  cases htag : formal.tag with
  | none => exact ⟨s, rfl, hlive, fun _ _ => id, fun name _ => .refl s env name, nofun⟩
  | some bound =>
    obtain ⟨f, hf⟩ := Option.isSome_iff_exists.1 hlive
    dsimp only
    split
    · -- a formal with a default that got nothing: a new promise of the default is bound
      rename_i hdefault
      obtain ⟨id, u, hpromise, hadds, -, hp⟩ := newPromise_run formal.value (.waiting env false) s
      have hlive' : u.heap.contains env = true := by rw [hadds.heap, hlive]
      have hbind := onHeap_modifyFrame env bound ⟨.promise id, true⟩ u
      rw [if_pos hlive'] at hbind
      refine ⟨u.bound env bound ⟨.promise id, true⟩, (bind_run_ok hpromise _).trans hbind, ?_,
        hadds.cells, fun name hname => ?_, fun name hname => ?_⟩
      · rw [contains_bound hlive', hlive']
      · have hadded : s.Leaves u env name := fun f hf => ⟨f, by rwa [hadds.heap], rfl⟩
        exact hadded.trans (.bound hlive' (fun he => hname (by rw [he])) _)
      · cases hname
        refine ⟨f.bind bound ⟨.promise id, true⟩, _, ?_, Frame.get?_bind_self _ _ _, ?_⟩
        · rw [frame?_bound hlive', if_pos rfl, hadds.heap, hf, Option.map_some]
        · rw [if_pos hdefault]
          exact ⟨rfl, id, rfl, hp⟩
    · -- otherwise what was passed is bound as it is
      rename_i hdefault
      have hbind := bindIn_run env bound v s
      rw [if_pos hlive] at hbind
      refine ⟨_, hbind, ?_, fun _ _ => id, fun name hname => ?_, fun name hname => ?_⟩
      · rw [contains_bound hlive, hlive]
      · exact .bound hlive (fun he => hname (by rw [he])) _
      · cases hname
        refine ⟨f.bind bound ⟨v, false⟩, _, ?_, Frame.get?_bind_self _ _ _, ?_⟩
        · rw [frame?_bound hlive, if_pos rfl, hf, Option.map_some]
        · rw [if_neg hdefault]

/-- Of several formals with one name the last one counts. -/
theorem bindFormals_run (hlive : s.heap.contains env = true)
    (pairs : List (Arg Value × Arg Value)) :
    ∃ t : Session,
      (pairs.forM fun (formal, arg) => bindFormal env formal arg.value : SessionM PUnit) s =
        (.ok (), t) ∧ t.heap.contains env = true ∧ s.KeepsCells t ∧
      (∀ name, (∀ pair ∈ pairs, pair.1.tag ≠ some name) → s.Leaves t env name) ∧
      ∀ (i : Nat) (pair : Arg Value × Arg Value) (name : Symbol), pairs[i]? = some pair →
        pair.1.tag = some name →
        (∀ (j : Nat) (later : Arg Value × Arg Value), i < j → pairs[j]? = some later →
          later.1.tag ≠ some name) →
        t.Enters env name pair.1.value pair.2.value := by
  induction pairs generalizing s with
  | nil => exact ⟨s, rfl, hlive, fun _ _ => id, fun name _ => .refl s env name, nofun⟩
  | cons first rest ih =>
    obtain ⟨u, hfirst, hlive', hcells, hleaves, henters⟩ :=
      bindFormal_run hlive first.1 first.2.value
    obtain ⟨t, hrest, hlive'', hcells', hleaves', henters'⟩ := ih hlive'
    refine ⟨t, (bind_run_ok hfirst _).trans hrest, hlive'', fun _ _ hp => hcells' (hcells hp),
      fun name hname => ?_, fun i pair name hpair htag hlast => ?_⟩
    · obtain ⟨hname₀, hname'⟩ := List.forall_mem_cons.1 hname
      exact (hleaves name hname₀).trans (hleaves' name hname')
    · cases i with
      -- the formals after this one have other names, so its entry lasts
      | zero =>
        cases hpair
        refine (henters name htag).leaves (hleaves' name fun later hlater => ?_) hcells'
        obtain ⟨j, hj⟩ := List.mem_iff_getElem?.1 hlater
        exact hlast (j + 1) later (Nat.succ_pos j) hj
      | succ i =>
        exact henters' i pair name hpair htag fun j later hij hj =>
          hlast (j + 1) later (Nat.succ_lt_succ hij) hj

theorem bindBesides_run (hlive : s.heap.contains env = true) (extra : List (Symbol × Value)) :
    ∃ t, (extra.forM fun (name, value) => bindIn env name value : SessionM PUnit) s = (.ok (), t) ∧
      s.KeepsCells t ∧ ∀ name, name ∉ extra.map Prod.fst → s.Leaves t env name := by
  induction extra generalizing s with
  | nil => exact ⟨s, rfl, fun _ _ => id, fun name _ => .refl s env name⟩
  | cons first rest ih =>
    have hbind := bindIn_run env first.1 first.2 s
    rw [if_pos hlive] at hbind
    have hlive' : (s.bound env first.1 ⟨first.2, false⟩).heap.contains env = true := by
      rw [contains_bound hlive, hlive]
    obtain ⟨t, hrest, hcells, hleaves⟩ := ih hlive'
    refine ⟨t, (bind_run_ok hbind _).trans hrest, hcells, fun name hname => ?_⟩
    obtain ⟨hne, hname'⟩ := not_or.1 (List.mem_cons.not.1 hname)
    exact (Leaves.bound hlive hne _).trans (hleaves name hname')

/-- The frame of an invocation binds each formal to what it was assigned, or to its default. -/
theorem furnish_run_entered {closure : Closure} {args matched : ArgList}
    (extra : List (Symbol × Value)) (hlive : s.heap.contains env = true)
    (hmatched : matchFormals closure.formals args true = .ok matched) :
    ∃ σ t, Assigns closure.formals args σ ∧ furnish closure env args extra s = (.ok (), t) ∧
      s.KeepsCells t ∧ ∀ i formal name, closure.formals[i]? = some formal → formal.tag = some name →
        (∀ j later, i < j → closure.formals[j]? = some later → later.tag ≠ some name) →
        name ∉ extra.map Prod.fst →
        t.Enters env name formal.value (assigned closure.formals args σ i) := by
  obtain ⟨σ, hσ, rfl⟩ := exists_assigned hmatched
  let matched := closure.formals.zipIdx.map fun formal =>
    Arg.new formal.1.tag (assigned closure.formals args σ formal.2)
  -- at each position a formal stands beside what it was assigned
  have hpair {i : Nat} {pair : Arg Value × Arg Value} :
      (closure.formals.zip matched)[i]? = some pair ↔ closure.formals[i]? = some pair.1 ∧
        pair.2 = Arg.new pair.1.tag (assigned closure.formals args σ i) := by
    rw [List.getElem?_zip_eq_some]
    refine and_congr_right fun hformal => ?_
    simp [matched, List.getElem?_map, List.getElem?_zipIdx, hformal, eq_comm]
  obtain ⟨u, hbound, hlive', hcells, -, henters⟩ :=
    bindFormals_run hlive (closure.formals.zip matched)
  obtain ⟨t, hextra, hcells', hleaves⟩ := bindBesides_run hlive' extra
  refine ⟨σ, t, hσ, ?_, fun _ _ hp => hcells' (hcells hp),
    fun i formal name hformal htag hlast hname => ?_⟩
  · rw [furnish, bindArguments, hmatched, ofExcept_ok, pure_bind]
    exact (bind_run_ok hbound _).trans hextra
  · have henter := henters i (formal, Arg.new formal.tag (assigned closure.formals args σ i)) name
      (hpair.2 ⟨hformal, rfl⟩) htag fun j later hij hlater => hlast j later.1 hij (hpair.1 hlater).1
    exact henter.leaves (hleaves name hname) hcells'

/-! ## What is missing -/

theorem isMissing_run_omitted {default : Value} (h : t.Enters env name default v)
    (hv : v.isMissingArg = true) : isMissing env name t = (.ok true, t) := by
  obtain ⟨f, b, hf, hb, hbinding⟩ := h
  have hmissing : bindingIsMissing b = true := by
    split at hbinding
    · simp [bindingIsMissing, hbinding.1]
    · simp [bindingIsMissing, hbinding, hv]
  rw [isMissing, bind_run_ok (askFrame_run hf), hb]
  dsimp only
  rw [if_pos hmissing]
  rfl

/-- A promise with a value stands for no argument, even if the value is the missing sentinel. -/
theorem isMissing_run_kept {default : Value} {id : PromiseId} {p : Promise}
    (h : t.Enters env name default (.promise id)) (hp : t.promises.get? id = some p)
    (hkept : p.isKept = true) : isMissing env name t = (.ok false, t) := by
  obtain ⟨f, b, hf, hb, hbinding⟩ := h
  have hb' : b = ⟨.promise id, false⟩ := by simpa [Value.isMissingArg] using hbinding
  subst hb'
  -- a promise that has its value has no environment any more to look the expression up in
  have hnone : p.env? = none := by
    obtain ⟨expr, state⟩ := p
    cases state with
    | waiting env mark => cases hkept
    | kept value => rfl
  have hpromise : promiseIsMissing p t = (.ok false, t) := by
    unfold promiseIsMissing
    rw [hnone]
    cases p.expr <;> rfl
  rw [isMissing, bind_run_ok (askFrame_run hf), hb]
  dsimp only
  rw [if_neg (by simp [bindingIsMissing, Value.isMissingArg]), get_bind_run, hp]
  exact hpromise

end SessionM

/-- Whatever a closure is invoked with, by a call, by `UseMethod` or by a host, an omitted argument
    is omitted still and a promise is the same one when the arguments are matched; an operator
    promises every operand, omitted or not.  When the body begins, a formal without an argument, or
    with an omitted one, reports itself missing and is bound to its default if it has one.  But a
    formal that got a promise whose value is known, as that of an omitted operand, is not
    missing. -/
theorem Session.omitted_arguments (ev : Evaluator) (s : Session) :
    (∀ r call closure env dots, ev.functionOf call env r = (.ok (.closure closure), s) →
      ellipsisArgs env s = (.ok dots, s) →
      ∃ passed t, Handed (s.Passes t) (splice dots call.args) passed ∧
        ev.evaluateCall call env r = ev.invoke closure env call passed [] t) ∧
    (∀ r generic object env i method extra,
      ev.chooseMethod generic object env r = (.ok (i, method, extra), s) →
      r.invocationOf? env = some i ∧
        ev.useMethod generic object env r = (do
          let value ← ev (.apply method i.call i.args i.callerEnv extra)
          throw (.returning env value) : SessionM Value) s) ∧
    (∀ function args env, ∃ passed call t, Handed (s.Passes t) args passed ∧
      ev.callFunction function args env s = ev (.apply function call passed env []) t) ∧
    (∀ r op env args table method,
      SessionM.methodsTable r.namespaces.baseEnv r = (.ok table, r) →
      ev.firstMethod env table (Evaluator.operatorMethodNames op args) r = (.ok (some method), s) →
      ∃ passed call extra t, Handed (s.Wraps t) args passed ∧
        ev.dispatchOperator op env args r =
          (do return some (← ev (.apply method call passed env extra)) : SessionM _) t) ∧
    (∀ closure callerEnv call args extra matched, s.heap.WellFormed →
      s.depth < s.options.maxCallDepth → matchFormals closure.formals args true = .ok matched →
      let env := (s.heap.allocate (some closure.env)).1
      ∃ σ t, Assigns closure.formals args σ ∧
        ev.invoke closure callerEnv call args extra s =
          ((catchReturn env (ev.evaluate closure.body env) t).1,
            (catchReturn env (ev.evaluate closure.body env) t).2.leave) ∧
        ∀ i formal name, closure.formals[i]? = some formal → formal.tag = some name →
          (∀ j later, i < j → closure.formals[j]? = some later → later.tag ≠ some name) →
          name ∉ extra.map Prod.fst →
          t.Enters env name formal.value (assigned closure.formals args σ i) ∧
          (assigned closure.formals args σ i = .missingArg →
            isMissing env name t = (.ok true, t)) ∧
          ∀ id p, assigned closure.formals args σ i = .promise id → s.promises.get? id = some p →
            p.isKept = true → isMissing env name t = (.ok false, t)) := by
  refine ⟨fun r call closure env dots hfunction hdots => ev.evaluateCall_run hfunction hdots,
    fun r generic object env i method extra hchosen =>
      ⟨Evaluator.invocation_of_chooseMethod hchosen, ?_⟩,
    fun function args env => ev.callFunction_run function args env s,
    fun r op env args table method htable hmethod => ev.dispatchOperator_run_method htable hmethod,
    fun closure callerEnv call args extra matched hwf hroom hmatched => ?_⟩
  · rw [Evaluator.useMethod_eq, bind_run_ok hchosen]
  · intro env
    have hlive : (Evaluator.entering s closure callerEnv call args).heap.contains env = true := by
      have hframe : (Evaluator.entering s closure callerEnv call args).heap.frame? env =
          some (.empty (some closure.env)) := hwf.frame?_insert_self _
      simp [Heap.contains, hframe]
    obtain ⟨σ, t, hσ, hfurnish, hkept, henters⟩ :=
      furnish_run_entered extra hlive hmatched
    refine ⟨σ, t, hσ, ev.invoke_run_furnished hroom rfl hfurnish,
      fun i formal name hformal htag hlast hextra => ?_⟩
    have henter := henters i formal name hformal htag hlast hextra
    refine ⟨henter, fun hmissing => ?_, fun id p hid hp hpkept => ?_⟩
    · exact isMissing_run_omitted henter (Value.isMissingArg_iff.2 hmissing)
    · rw [hid] at henter
      exact isMissing_run_kept henter (hkept hp) hpkept

/-- Of the two arguments that `function(a, b = NULL)` gets here, the first is the promise of an
    omitted operand, and the second is omitted.  An operator makes such promises. -/
theorem Session.omitted_arguments_operand :
    let method : Closure := ⟨⟨100⟩, [.tagged ⟨"a"⟩ .missingArg, .tagged ⟨"b"⟩ .null], .null, ⟨1, 0⟩⟩
    let foo : Value := .vector ⟨⟨101⟩, .character #["x"],
      ⟨[(.classAttribute, .vector ⟨⟨102⟩, .character #["foo"], .empty⟩)]⟩⟩
    let new := Session.initial {} .empty
    let s : Session := { new.bound ⟨1, 0⟩ ⟨"+.foo"⟩ ⟨.closure method, false⟩ with
      promises := (new.promises.add ⟨.missingArg, .kept .missingArg⟩).2 }
    let operands : ArgList := [.untagged foo, .untagged .missingArg]
    let ev := evaluator 1
    (∃ passed call extra t, Handed (s.Wraps t) operands passed ∧
      ev.dispatchOperator "+" ⟨1, 0⟩ operands s =
        (do return some (← ev (.apply (.closure method) call passed ⟨1, 0⟩ extra)) :
          SessionM _) t) ∧
    ∃ t : Session, isMissing ⟨2, 0⟩ ⟨"a"⟩ t = (.ok false, t) ∧
      isMissing ⟨2, 0⟩ ⟨"b"⟩ t = (.ok true, t) := by
  intro method foo new s operands ev
  obtain ⟨-, -, -, hoperator, henters⟩ := Session.omitted_arguments ev s
  let args : ArgList := [.untagged (.promise ⟨0⟩), .untagged .missingArg]
  have hmatched : matchFormals method.formals args true =
      .ok [.tagged ⟨"a"⟩ (.promise ⟨0⟩), .tagged ⟨"b"⟩ .missingArg] := by rfl
  have hwf : s.heap.WellFormed := ((Heap.wellFormed_empty.insert _).allocate _).updateSlot _ _
  obtain ⟨σ, t, hσ, -, hbound⟩ :=
    henters method ⟨1, 0⟩ ⟨⟨103⟩, .null, []⟩ args [] _ hwf (Nat.zero_lt_succ _) hmatched
  have hfree : free method.formals args = [0, 1] := by decide
  have huntagged : untagged args = [0, 1] := by decide
  -- each formal gets the operand at its position
  have hassigned (k : Nat) (hk : [0, 1][k]? = some k) :
      assigned method.formals args σ k = (args[k]?).elim .missingArg (·.value) := by
    have hσk : σ k = some k := by
      rw [hσ.positional (hfree ▸ hk), huntagged, hk]
    have hordinary : ¬ IsEllipsis method.formals k := (hσ.ordinary hσk).1.2
    rw [assigned, if_neg hordinary, hσk]
    rfl
  refine ⟨hoperator s "+" ⟨1, 0⟩ operands none (.closure method) rfl rfl, t, ?_, ?_⟩
  · have hlast (j : Nat) (later : Arg Value) (hj : 0 < j) (hlater : method.formals[j]? = some later) :
        later.tag ≠ some ⟨"a"⟩ := by
      obtain _ | _ | j := j
      · cases hj
      · cases hlater
        decide
      · cases hlater
    obtain ⟨-, -, hkept⟩ := hbound 0 _ ⟨"a"⟩ rfl rfl hlast List.not_mem_nil
    exact hkept ⟨0⟩ _ (hassigned 0 rfl) rfl rfl
  · have hlast (j : Nat) (later : Arg Value) (hj : 1 < j) (hlater : method.formals[j]? = some later) :
        later.tag ≠ some ⟨"b"⟩ := by
      obtain _ | _ | j := j
      · cases hj
      · omega
      · cases hlater
    obtain ⟨-, hmissing, -⟩ := hbound 1 _ ⟨"b"⟩ rfl rfl hlast List.not_mem_nil
    exact hmissing (hassigned 1 rfl)

end CallByNeed
