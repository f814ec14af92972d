import CallByNeed.Proofs.Dangling.Answers
import CallByNeed.Proofs.Promises
import CallByNeed.Proofs.Returns.Escape

/-!
# UseMethod goes on with the arguments of the call

`UseMethod` chooses a method for the active invocation of its environment
(`Evaluator.chooseMethod`), applies it to the arguments of that invocation, and
returns the value from there; it never comes to a value itself.

A closure gets the arguments as they were given to the call: its frame binds each
formal to one of them, or collects some of them under `...`
(`Session.Furnished`).  An eager builtin gets their values, which the promises
among them have afterwards.  A special form gets the call instead, in the
environment of the caller, and so evaluates argument expressions anew.
-/

namespace CallByNeed

open Matching SessionM

variable {s t : Session} {env : EnvId}

namespace Session

/-! ## The frame of an invocation -/

/-- A binding in the frame `env` of an invocation: of what a formal was supplied with, of the
    promise of the default expression of a formal in that same frame, or one of those made
    besides. -/
def Furnishes (s : Session) (env : EnvId) (formals args : ArgList) (extra : List (Symbol × Value))
    (name : Symbol) (binding : Binding) : Prop :=
  Supplied args binding.value ∨
    (∃ formal ∈ formals, ∃ id, binding.value = .promise id ∧
      s.promises.get? id = some ⟨formal.value, .waiting env false⟩) ∨
    (name, binding.value) ∈ extra

/-- The frame is there, and its bindings are those of an invocation with these arguments. -/
def Furnished (s : Session) (env : EnvId) (formals args : ArgList)
    (extra : List (Symbol × Value)) : Prop :=
  ∃ frame, s.heap.frame? env = some frame ∧
    ∀ name binding, frame.get? name = some binding → s.Furnishes env formals args extra name binding

variable {formals args : ArgList} {extra : List (Symbol × Value)} {name : Symbol}

theorem Furnished.contains (h : s.Furnished env formals args extra) :
    s.heap.contains env = true := by
  obtain ⟨frame, hframe, -⟩ := h
  exact Heap.contains_of_frame? hframe

theorem Furnished.bound {binding : Binding} (h : s.Furnished env formals args extra)
    (hbinding : s.Furnishes env formals args extra name binding) :
    (s.bound env name binding).Furnished env formals args extra := by
  have hlive := h.contains
  obtain ⟨frame, hframe, hbindings⟩ := h
  refine ⟨frame.bind name binding, by simp [frame?_bound hlive, hframe], fun other b hb => ?_⟩
  by_cases hother : other = name
  · subst hother
    rw [Frame.get?_bind_self] at hb
    cases hb
    exact hbinding
  · rw [Frame.get?_bind_of_ne _ _ hother] at hb
    exact hbindings other b hb

theorem Furnished.promised (h : s.Furnished env formals args extra) (p : Promise) :
    { s with promises := (s.promises.add p).2 }.Furnished env formals args extra := by
  obtain ⟨frame, hframe, hbindings⟩ := h
  refine ⟨frame, hframe, fun name b hb => (hbindings name b hb).imp_right (.imp_left ?_)⟩
  rintro ⟨formal, hformal, id, hid, hp⟩
  exact ⟨formal, hformal, id, hid, PromiseStore.get?_add_of_some p hp⟩

/-- The actions after which the frame is furnished and nothing else than frames and promises has
    changed. -/
def FurnishesBy (s : Session) (env : EnvId) (formals args : ArgList)
    (extra : List (Symbol × Value)) (act : SessionM Unit) : Prop :=
  ∃ t, act s = (.ok (), t) ∧ t.stack = s.stack ∧ t.Furnished env formals args extra

theorem Furnished.bindIn {value : Value} (h : s.Furnished env formals args extra)
    (hbinding : s.Furnishes env formals args extra name ⟨value, false⟩) :
    s.FurnishesBy env formals args extra (SessionM.bindIn env name value) :=
  ⟨_, (bindIn_run env name value s).trans (if_pos h.contains), rfl, h.bound hbinding⟩

theorem Furnished.bindFormal {formal : Arg Value} {value : Value}
    (h : s.Furnished env formals args extra) (hformal : formal ∈ formals)
    (hvalue : Supplied args value) :
    s.FurnishesBy env formals args extra (SessionM.bindFormal env formal value) := by
  unfold SessionM.bindFormal
  cases formal.tag with
  | none => exact ⟨s, rfl, rfl, h⟩
  | some name =>
    dsimp only
    split
    · -- the promise is the newest one, and waits in the frame for the value of the default
      let p : Promise := ⟨formal.value, .waiting env false⟩
      let promised : Session := { s with promises := (s.promises.add p).2 }
      have hp : promised.promises.get? (s.promises.add p).1 = some p :=
        s.promises.get?_add_self p
      refine ⟨_, (onHeap_modifyFrame env name ⟨.promise (s.promises.add p).1, true⟩ promised).trans
        (if_pos h.contains), rfl, (h.promised p).bound (.inr (.inl ?_))⟩
      exact ⟨formal, hformal, _, rfl, hp⟩
    · exact h.bindIn (.inl hvalue)

theorem Furnished.forM {α : Type} (act : α → SessionM Unit) (items : List α)
    (h : s.Furnished env formals args extra)
    (hact : ∀ a ∈ items, ∀ t : Session, t.Furnished env formals args extra →
      t.FurnishesBy env formals args extra (act a)) :
    s.FurnishesBy env formals args extra (items.forM act) := by
  induction items generalizing s with
  | nil => exact ⟨s, rfl, rfl, h⟩
  | cons a rest ih =>
    obtain ⟨t, hrun, hstack, ht⟩ := hact a List.mem_cons_self s h
    obtain ⟨u, hrest, hstack', hu⟩ := ih ht fun b hb => hact b (.tail _ hb)
    exact ⟨u, (bind_run_ok hrun _).trans hrest, hstack'.trans hstack, hu⟩

end Session

/-! ## Applying a closure -/

namespace SessionM

/-- Fill the frame of an invocation. -/
def furnish (closure : Closure) (env : EnvId) (args : ArgList) (extra : List (Symbol × Value)) :
    SessionM Unit := do
  bindArguments closure.formals args env
  extra.forM fun (name, value) => bindIn env name value

/-- A new frame is furnished unless the arguments do not match the formals. -/
theorem furnish_run {parent : Option EnvId} (hframe : s.heap.frame? env = some (.empty parent))
    (closure : Closure) (args : ArgList) (extra : List (Symbol × Value)) :
    (∃ e, furnish closure env args extra s = (.error (.failure e), s)) ∨
      s.FurnishesBy env closure.formals args extra (furnish closure env args extra) := by
  have hbind {outcome : Except EvalError ArgList}
      (houtcome : matchFormals closure.formals args true = outcome) :
      furnish closure env args extra = (do
        let matched ← ofExcept outcome
        (closure.formals.zip matched).forM fun pair => bindFormal env pair.1 pair.2.value
        extra.forM fun entry => bindIn env entry.1 entry.2) := by
    rw [furnish, bindArguments, houtcome, bind_assoc]
  cases hmatched : matchFormals closure.formals args true with
  | error e => exact .inl ⟨e, by rw [hbind hmatched]; rfl⟩
  | ok matched =>
    -- an empty frame binds nothing that would have to be accounted for
    have hs : s.Furnished env closure.formals args extra :=
      ⟨_, hframe, fun _ _ h => by cases h⟩
    obtain ⟨t, hbound, hstack, ht⟩ := hs.forM
      (fun pair => bindFormal env pair.1 pair.2.value) (closure.formals.zip matched)
      fun pair hmem u hu => hu.bindFormal (List.of_mem_zip hmem).1
        (yields_supplied _ _ _ _ hmatched pair.2 (List.of_mem_zip hmem).2)
    obtain ⟨u, hextra, hstack', hu⟩ := ht.forM
      (fun entry => bindIn env entry.1 entry.2) extra
      fun entry hmem v hv => hv.bindIn (.inr (.inr hmem))
    refine .inr ⟨u, ?_, hstack'.trans hstack, hu⟩
    rw [hbind hmatched, ofExcept_ok, pure_bind_run, bind_run_ok hbound, hextra]

end SessionM

namespace Evaluator

open Session

variable {closure : Closure} {callerEnv : EnvId} {call : Call} {args : ArgList}
  {extra : List (Symbol × Value)}

/-- The session in which the frame of a new invocation is about to be furnished. -/
def entering (s : Session) (closure : Closure) (callerEnv : EnvId) (call : Call) (args : ArgList) :
    Session :=
  { s with heap := (s.heap.allocate (some closure.env)).2 }.enter
    ⟨(s.heap.allocate (some closure.env)).1, callerEnv, closure, call, args⟩

theorem invoke_eq (ev : Evaluator) (closure : Closure) (callerEnv : EnvId) (call : Call)
    (args : ArgList) (extra : List (Symbol × Value)) :
    ev.invoke closure callerEnv call args extra = (do
      let env ← allocate (some closure.env)
      withInvocation ⟨env, callerEnv, closure, call, args⟩ do
        furnish closure env args extra
        catchReturn env (ev.evaluate closure.body env)) := by
  simp only [invoke, furnish, bind_assoc]

theorem invoke_run_furnished (ev : Evaluator) (hroom : s.depth < s.options.maxCallDepth)
    (henv : (s.heap.allocate (some closure.env)).1 = env)
    (hfurnish : furnish closure env args extra (entering s closure callerEnv call args) =
      (.ok (), t)) :
    ev.invoke closure callerEnv call args extra s =
      ((catchReturn env (ev.evaluate closure.body env) t).1,
        (catchReturn env (ev.evaluate closure.body env) t).2.leave) := by
  subst henv
  let made : Session := { s with heap := (s.heap.allocate (some closure.env)).2 }
  have hmade : allocate (some closure.env) s = (.ok (s.heap.allocate (some closure.env)).1, made) :=
    rfl
  have hroom' : made.depth < made.options.maxCallDepth := hroom
  rw [invoke_eq, bind_run_ok hmade, withInvocation_run _ _ hroom']
  rw [entering] at hfurnish
  rw [bind_run_ok hfurnish]

/-- An invocation fails before its body begins, or it evaluates the body with its frame furnished
    and itself on the stack. -/
theorem invoke_run (ev : Evaluator) (hwf : s.heap.WellFormed) (closure : Closure)
    (callerEnv : EnvId) (call : Call) (args : ArgList) (extra : List (Symbol × Value)) :
    let env := (s.heap.allocate (some closure.env)).1
    (∃ e t, ev.invoke closure callerEnv call args extra s = (.error (.failure e), t)) ∨
    ∃ t, t.Furnished env closure.formals args extra ∧
      t.stack = ⟨env, callerEnv, closure, call, args⟩ :: s.stack ∧
      ev.invoke closure callerEnv call args extra s =
        ((catchReturn env (ev.evaluate closure.body env) t).1,
          (catchReturn env (ev.evaluate closure.body env) t).2.leave) := by
  intro env
  let made : Session := { s with heap := (s.heap.allocate (some closure.env)).2 }
  have hmade : allocate (some closure.env) s = (.ok env, made) := rfl
  -- the invocation is refused when the stack is full
  by_cases hroom : s.depth < s.options.maxCallDepth
  · have hframe : (entering s closure callerEnv call args).heap.frame? env =
        some (.empty (some closure.env)) := hwf.frame?_insert_self _
    obtain ⟨e, hfails⟩ | ⟨t, hfurnish, hstack, ht⟩ := furnish_run hframe closure args extra
    · have hroom' : made.depth < made.options.maxCallDepth := hroom
      rw [invoke_eq, bind_run_ok hmade, withInvocation_run _ _ hroom']
      rw [entering] at hfails
      rw [bind_run_error hfails]
      exact .inl ⟨e, _, rfl⟩
    · exact .inr ⟨t, ht, hstack, ev.invoke_run_furnished hroom rfl hfurnish⟩
  · have hfull : made.options.maxCallDepth ≤ made.depth := Nat.le_of_not_lt hroom
    rw [invoke_eq, bind_run_ok hmade, withInvocation_run_full _ _ hfull]
    exact .inl ⟨_, _, rfl⟩

/-- The body is handed on in the session in which the frame is furnished. -/
theorem consults_body (ev : Evaluator) (hroom : s.depth < s.options.maxCallDepth)
    (henv : (s.heap.allocate (some closure.env)).1 = env)
    (hfurnish : furnish closure env args extra (entering s closure callerEnv call args) =
      (.ok (), t)) :
    Consults (fun ev => ev.step (.apply (.closure closure) call args callerEnv extra)) ev s
      (.evaluate closure.body env) t := by
  classical
  let body : Task := .evaluate closure.body env
  -- another answer to the body, a value for an error or an error for a value, shows at the end
  obtain ⟨answer, hanswer⟩ : ∃ answer : Except Interrupt Value,
      (∀ value, answer ≠ .error (.returning env value)) ∧
        answer ≠ (catchReturn env (ev body) t).1 := by
    cases (catchReturn env (ev body) t).1 with
    | ok value => exact ⟨.error .exhausted, (fun _ h => nomatch h), fun h => nomatch h⟩
    | error e => exact ⟨.ok .null, (fun _ h => nomatch h), fun h => nomatch h⟩
  let other : Evaluator := fun task u => if (task, u) = (body, t) then (answer, t) else ev task u
  refine ⟨other, fun task u hne => if_neg hne, fun hsame => hanswer.2 ?_⟩
  have hother : catchReturn env (other body) t = (answer, t) :=
    catchReturn_run_passed (if_pos rfl) hanswer.1
  have hinvoke (ev : Evaluator) :
      (ev.step (.apply (.closure closure) call args callerEnv extra) s).1 =
        (catchReturn env (ev body) t).1 := by
    have hrun := congrArg Prod.fst (ev.invoke_run_furnished hroom henv hfurnish)
    exact hrun
  calc answer
    _ = (catchReturn env (other body) t).1 := by rw [hother]
    _ = (other.step (.apply (.closure closure) call args callerEnv extra) s).1 := (hinvoke _).symm
    _ = (ev.step (.apply (.closure closure) call args callerEnv extra) s).1 :=
      congrArg Prod.fst hsame
    _ = (catchReturn env (ev body) t).1 := hinvoke _

/-! ## Applying an eager builtin -/

variable {fuel : Nat}

theorem known?_of_forceArg {arg value : Arg Value}
    (h : (evaluator fuel).forceArg arg s = (.ok value, t)) :
    (t.known? arg.value).map (Arg.new arg.tag) = some value := by
  unfold forceArg at h
  split at h
  · rename_i hmissing
    cases h
    rw [Value.isMissingArg_iff.1 hmissing]
    rfl
  · rcases hforce : (evaluator fuel).force arg.value s with ⟨e | forced, u⟩
    · rw [bind_run_error hforce] at h
      cases h
    · rw [bind_run_ok hforce] at h
      cases h
      rcases known?_of_force hforce with ⟨hknown, rfl⟩ | ⟨id, hid, -, expr, hp⟩
      · simp [hknown]
      · simp [hid, known?_promise_eq_some_iff.2 ⟨expr, hp⟩]

/-- The values of forced arguments are those that the promises among them have afterwards. -/
theorem known?_of_forceArgs {args values : ArgList}
    (h : args.mapM (evaluator fuel).forceArg s = (.ok values, t)) :
    args.map (fun arg => (t.known? arg.value).map (Arg.new arg.tag)) = values.map some := by
  have hclosed := Contract.keepsPromises_loopBlind.closed
  induction args generalizing s values with
  | nil =>
    cases h
    rfl
  | cons arg rest ih =>
    rw [List.mapM_cons] at h
    rcases hforce : (evaluator fuel).forceArg arg s with ⟨e | value, u⟩
    · rw [bind_run_error hforce] at h
      cases h
    rw [bind_run_ok hforce] at h
    rcases hrest : rest.mapM (evaluator fuel).forceArg u with ⟨e | others, v⟩
    · rw [bind_run_error hrest] at h
      cases h
    rw [bind_run_ok hrest] at h
    cases h
    -- forcing the other arguments keeps the value of the first one
    have hkeeps : Contract.keepsPromises.Keeps (rest.mapM (evaluator fuel).forceArg) :=
      .mapM fun arg => Contract.agree_forceArg (hclosed.agree_evaluator fuel) arg
    have hrel := (hkeeps u trivial).rel
    rw [hrest] at hrel
    obtain ⟨known, hknown, rfl⟩ := Option.map_eq_some_iff.1 (known?_of_forceArg hforce)
    rw [List.map_cons, List.map_cons, ih hrest, known?_of_keepsPromises hrel hknown]
    rfl

/-! ## Choosing a method -/

/-- The method of a generic for an object in an invocation, and what is bound besides if it is a
    closure. -/
def methodFor (ev : Evaluator) (generic : String) (object : Value) (invocation : Invocation) :
    SessionM (Value × List (Symbol × Value)) := do
  let classes := object.classes
  let definitionEnv := (← ev.genericEnv generic invocation.callerEnv).getD invocation.closure.env
  match ← ev.selectMethod generic classes invocation.callerEnv (some definitionEnv) with
  | none => fail (.noApplicableMethod generic (classes.head?.getD ""))
  | some selected =>
    return (selected.method,
      [(⟨".Generic"⟩, ← newString generic), (⟨".Class"⟩, ← classesValue selected.classes)])

/-- The object that a method is chosen for: the receiver of the invocation unless it is given. -/
def objectFor (ev : Evaluator) (object : Option Value) (invocation : Invocation) (env : EnvId) :
    SessionM Value :=
  match object with
  | some object => pure object
  | none => ev.receiver invocation.closure.formals env

/-- The invocation that `UseMethod` goes on with, the method that it applies there, and what is
    bound besides. -/
def chooseMethod (ev : Evaluator) (generic : String) (object : Option Value) (env : EnvId) :
    SessionM (Invocation × Value × List (Symbol × Value)) := do
  match (← get).invocationOf? env with
  | none => fail (.invalidArgument "UseMethod called from outside a function")
  | some invocation =>
    let object ← ev.objectFor object invocation env
    return (invocation, ← ev.methodFor generic object invocation)

theorem applyMethod_eq (ev : Evaluator) (generic : String) (object : Value) (i : Invocation)
    (env : EnvId) :
    ev.applyMethod generic object i env = (do
      let (method, extra) ← ev.methodFor generic object i
      let value ← ev (.apply method i.call i.args i.callerEnv extra)
      throw (.returning env value)) := by
  simp only [applyMethod, methodFor, bind_assoc]
  refine bind_congr fun definitionEnv => bind_congr fun selected => ?_
  cases selected with
  | none => rfl
  | some selected => simp only [bind_assoc, pure_bind]

/-- `UseMethod` chooses, applies and returns. -/
theorem useMethod_eq (ev : Evaluator) (generic : String) (object : Option Value) (env : EnvId) :
    ev.useMethod generic object env = (do
      let (i, method, extra) ← ev.chooseMethod generic object env
      let value ← ev (.apply method i.call i.args i.callerEnv extra)
      throw (.returning env value)) := by
  simp only [useMethod, chooseMethod, bind_assoc]
  refine bind_congr fun s => ?_
  cases s.invocationOf? env with
  | none => rfl
  | some i => cases object <;> simp only [objectFor, applyMethod_eq, bind_assoc, pure_bind]

theorem invocation_of_chooseMethod {ev : Evaluator} {generic : String} {object : Option Value}
    {i : Invocation} {method : Value} {extra : List (Symbol × Value)}
    (h : ev.chooseMethod generic object env s = (.ok (i, method, extra), t)) :
    s.invocationOf? env = some i := by
  rw [chooseMethod, get_bind_run] at h
  cases hfound : s.invocationOf? env with
  | none =>
    rw [hfound] at h
    cases h
  | some invocation =>
    rw [hfound] at h
    dsimp only at h
    rcases hobject : ev.objectFor object invocation env s with ⟨e | object, u⟩
    · rw [bind_run_error hobject] at h
      cases h
    rw [bind_run_ok hobject] at h
    rcases hmethod : ev.methodFor generic object invocation u with ⟨e | chosen, v⟩
    · rw [bind_run_error hmethod] at h
      cases h
    rw [bind_run_ok hmethod] at h
    cases h
    rfl

end Evaluator

namespace Contract

variable {C : Contract} {ev₁ ev₂ : Evaluator} (h : C.AgreeAll ev₁ ev₂)
include h

theorem agree_methodFor (generic : String) (object : Value) (i : Invocation) :
    C.Agree (ev₁.methodFor generic object i) (ev₂.methodFor generic object i) := by
  refine (agree_genericEnv h _ _).bind fun definitionEnv => ?_
  refine (agree_selectMethod h _ _ _ _).bind fun found => ?_
  cases found with
  | none => exact keeps_fail rfl
  | some selected =>
    exact (keeps_newVector _ _).bind fun _ => (keeps_classesValue _).bind fun _ => keeps_pure _

theorem agree_chooseMethod (generic : String) (object : Option Value) (env : EnvId) :
    C.Agree (ev₁.chooseMethod generic object env) (ev₂.chooseMethod generic object env) := by
  refine keeps_get.bind fun s => ?_
  split
  · exact keeps_fail rfl
  · refine Agree.bind ?_ fun object => (agree_methodFor h _ _ _).bind fun _ => keeps_pure _
    cases object with
    | some object => exact keeps_pure _
    | none => exact agree_receiver h _ _

end Contract

section

variable {fuel : Nat} {generic : String} {object : Option Value} {i : Invocation} {method : Value}
  {extra : List (Symbol × Value)}
  (hchosen : (evaluator fuel).chooseMethod generic object env s = (.ok (i, method, extra), t))
include hchosen

theorem Session.Staffed.keepsStack_of_chooseMethod (hs : s.Staffed) : s.KeepsStack t := by
  have hclosed := Contract.activeReturns_loopBlind.closed
  have hrel := (Contract.agree_chooseMethod (hclosed.agree_evaluator fuel) generic object env s
    hs).rel
  rwa [hchosen] at hrel

theorem Evaluator.advances_of_chooseMethod : s.Advances t := by
  let C := Contract.advances (fun _ => True) (fun _ _ => trivial) fun _ _ => trivial
  have hclosed : C.Closed := Contract.advances_closed
  have hrel := (Contract.agree_chooseMethod (hclosed.agree_evaluator fuel) generic object env s
    trivial).rel
  rwa [hchosen] at hrel

end

variable {options : Options} {kernels : KernelTable}

open Session Evaluator in
/-- Once `UseMethod` has chosen a method, it applies it to the arguments of the one active
    invocation of its environment and never comes to a value: it ends with the error of the method,
    or returns the value of the method from that invocation, and what follows it is not evaluated.
    Every task, promise and generic run on the way hands this return on, except a loop that
    resolves names on trial.

    A closure finds the arguments themselves in its frame.  An eager builtin gets the values that
    they have afterwards.  A special form gets the call and the environment of the caller, and
    none of the arguments.  A promise among the arguments whose value is known is not evaluated
    again. -/
theorem Session.Reachable.useMethod_reuses_args (h : s.Reachable options kernels) {fuel : Nat}
    {generic : String} {object : Option Value} {i : Invocation} {method : Value}
    {extra : List (Symbol × Value)}
    (hchosen : (evaluator (fuel + 1)).chooseMethod generic object env s =
      (.ok (i, method, extra), t)) :
    let ev := evaluator (fuel + 1)
    let apply : Task := .apply method i.call i.args i.callerEnv extra
    let frame := fun closure : Closure => (t.heap.allocate (some closure.env)).1
    (s.invocationOf? env = some i ∧ (∃! j, j ∈ s.stack ∧ j.env = env) ∧ t.stack = s.stack ∧
      s.Advances t) ∧
    (∀ value u, ev apply t = (.ok value, u) →
      ev.useMethod generic object env s = (.error (.returning env value), u) ∧
      (∀ (α : Type) (rest : Value → SessionM α), (ev.useMethod generic object env >>= rest) s =
        (.error (.returning env value), u)) ∧
      catchReturn env (ev.useMethod generic object env) s = (.ok value, u)) ∧
    (∀ e u, ev apply t = (.error e, u) → ev.useMethod generic object env s = (.error e, u)) ∧
    (∀ value task u,
      HandsOn ev (.returning env value) u (fun ev => ev.step task) ∨
        Catches ev env value (ev.step task u) ∨
        EndsOnTrial (ev.silenced (.returning env value)) task u) ∧
    (∀ closure, method = .closure closure →
      (∃ e u, ev apply t = (.error (.failure e), u)) ∨
      ∃ u, u.Furnished (frame closure) closure.formals i.args extra ∧
        u.stack = ⟨frame closure, i.callerEnv, closure, i.call, i.args⟩ :: s.stack ∧
        ∃ outcome v, catchReturn (frame closure)
            ((evaluator fuel).evaluate closure.body (frame closure)) u = (outcome, v) ∧
          ev apply t = (outcome, v.leave)) ∧
    (∀ identity builtin, method = .builtin identity (.eager builtin) →
      (∃ e u, ev apply t = (.error e, u) ∧
        i.args.mapM (evaluator fuel).forceArg t = (.error e, u)) ∨
      ∃ values u, i.args.mapM (evaluator fuel).forceArg t = (.ok values, u) ∧
        i.args.map (fun arg => (u.known? arg.value).map (Arg.new arg.tag)) = values.map some ∧
        ev apply t = (evaluator fuel).runEager builtin values i.callerEnv u) ∧
    (∀ identity form, method = .builtin identity (.special form) →
      ev apply t = (evaluator fuel).runSpecial form i.call i.callerEnv t) ∧
    ∀ arg ∈ i.args, ∀ id, arg.value = .promise id → ∀ (u : Session) expr value,
      u.promises.get? id = some ⟨expr, .kept value⟩ →
        ∀ v, u.Leads v → ∀ ev : Evaluator, ev.demand id v = (.ok value, v) := by
  intro ev apply frame
  have hinvocation := invocation_of_chooseMethod hchosen
  have hmem : i ∈ s.stack := List.mem_of_find?_eq_some hinvocation
  have henv : i.env = env := by simpa using List.find?_some hinvocation
  have hkeeps := h.staffed.keepsStack_of_chooseMethod hchosen
  have hadvances := advances_of_chooseMethod hchosen
  have hvalue {value : Value} {u : Session} (hu : ev apply t = (.ok value, u)) :
      ev.useMethod generic object env s = (.error (.returning env value), u) := by
    rw [useMethod_eq, bind_run_ok hchosen]
    exact bind_run_ok hu _
  refine ⟨⟨hinvocation, ?_, hkeeps.stack, hadvances⟩, fun value u hu => ?_, fun e u hu => ?_,
    fun value task u => ?_, fun closure hmethod => ?_, fun identity builtin hmethod => ?_,
    fun identity form hmethod => ?_, fun arg harg id hid u expr value hp v hv ev' => ?_⟩
  · rw [← henv]
    exact h.staffed.unique_invocation hmem
  · exact ⟨hvalue hu, fun α rest => bind_run_error (hvalue hu) rest,
      catchReturn_run_caught (hvalue hu)⟩
  · rw [useMethod_eq, bind_run_ok hchosen]
    exact bind_run_error hu _
  · exact relaysAt_step (relays_silenced _ _) task u
  · have hinvoke := (evaluator fuel).invoke_run (hkeeps.wellFormed h.staffed.wellFormed) closure
      i.callerEnv i.call i.args extra
    rw [hkeeps.stack] at hinvoke
    have happly :
        ev apply t = (evaluator fuel).invoke closure i.callerEnv i.call i.args extra t := by
      subst hmethod
      rfl
    rw [happly]
    exact hinvoke.imp_right fun ⟨u, hu, hstack, hrun⟩ => ⟨u, hu, hstack, _, _, rfl, hrun⟩
  · have happly : ev apply t = (do
        let values ← i.args.mapM (evaluator fuel).forceArg
        (evaluator fuel).runEager builtin values i.callerEnv : SessionM Value) t := by
      subst hmethod
      rfl
    rw [happly]
    rcases hforced : i.args.mapM (evaluator fuel).forceArg t with ⟨e | values, u⟩
    · exact .inl ⟨e, u, bind_run_error hforced _, rfl⟩
    · exact .inr ⟨values, u, rfl, known?_of_forceArgs hforced, bind_run_ok hforced _⟩
  · subst hmethod
    rfl
  · exact ev'.demand_run_kept (hv.kept hp)

namespace Session

/-- A session in which a function of `x` was just invoked at top level, and a method for its default
    is visible. -/
def dispatching (method : Closure) : Session :=
  let s := Session.initial {} .empty
  let promised := { s with promises := (s.promises.add ⟨.null, .kept .null⟩).2 }
  let visible := promised.bound s.globalEnv ⟨"f.default"⟩ ⟨.closure method, false⟩
  let closure : Closure := ⟨⟨0⟩, [.tagged ⟨"x"⟩ .missingArg], .null, s.globalEnv⟩
  let args : ArgList := [.untagged (.promise ⟨0⟩)]
  (Evaluator.entering visible closure s.globalEnv ⟨⟨1⟩, .null, []⟩ args).bound ⟨2, 0⟩ ⟨"x"⟩
    ⟨.promise ⟨0⟩, false⟩

theorem reachable_dispatching (method : Closure) : (dispatching method).Reachable {} .empty := by
  let s := Session.initial {} .empty
  let promised := { s with promises := (s.promises.add ⟨.null, .kept .null⟩).2 }
  let visible := promised.bound s.globalEnv ⟨"f.default"⟩ ⟨.closure method, false⟩
  have hvisible : visible.Reachable {} .empty :=
    .host (.host .initial (.move (.promise _ rfl))) (.move (.write _ _ rfl))
  let closure : Closure := ⟨⟨0⟩, [.tagged ⟨"x"⟩ .missingArg], .null, s.globalEnv⟩
  let args : ArgList := [.untagged (.promise ⟨0⟩)]
  have hmatched : matchFormals closure.formals args true =
      .ok [.tagged ⟨"x"⟩ (.promise ⟨0⟩)] := by rfl
  have hfurnish : SessionM.furnish closure ⟨2, 0⟩ args []
      (Evaluator.entering visible closure s.globalEnv ⟨⟨1⟩, .null, []⟩ args) =
        (.ok (), dispatching method) := by
    rw [SessionM.furnish, SessionM.bindArguments, hmatched]
    rfl
  exact .during hvisible 0 (Evaluator.consults_body (evaluator 0) (Nat.zero_lt_succ _) rfl hfurnish)

/-- The method returns the value that it finds under its own formal. -/
theorem Reachable.useMethod_reuses_args_default :
    let s := dispatching ⟨⟨2⟩, [.tagged ⟨"y"⟩ .missingArg], .symbol ⟨"y"⟩, ⟨1, 0⟩⟩
    s.Reachable {} .empty ∧ ∃ i method extra t value,
      (evaluator 4).chooseMethod "f" none ⟨2, 0⟩ s = (.ok (i, method, extra), t) ∧
      ((evaluator 4).useMethod "f" none ⟨2, 0⟩ s).1 = .error (.returning ⟨2, 0⟩ value) ∧
      (catchReturn ⟨2, 0⟩ ((evaluator 4).useMethod "f" none ⟨2, 0⟩) s).1 = .ok value := by
  intro s
  have happlied : (match (evaluator 4).chooseMethod "f" none ⟨2, 0⟩ s with
      | (.ok (i, method, extra), t) =>
        (evaluator 4 (.apply method i.call i.args i.callerEnv extra) t).1.toOption.isSome
      | (.error _, _) => false) = true := by decide +kernel
  rcases hchosen : (evaluator 4).chooseMethod "f" none ⟨2, 0⟩ s with ⟨e | ⟨i, method, extra⟩, t⟩ <;>
    rw [hchosen] at happlied
  · cases happlied
  dsimp only at happlied
  rcases hvalue : evaluator 4 (.apply method i.call i.args i.callerEnv extra) t
    with ⟨e | value, u⟩ <;> rw [hvalue] at happlied
  · cases happlied
  obtain ⟨-, hvalues, -⟩ := useMethod_reuses_args (reachable_dispatching _) hchosen
  obtain ⟨hreturns, -, hcaught⟩ := hvalues value u hvalue
  exact ⟨reachable_dispatching _, i, method, extra, t, value, rfl, by rw [hreturns],
    by rw [hcaught]⟩

end Session

end CallByNeed
