import CallByNeed.Proofs.Restrained.Discipline
import CallByNeed.Proofs.UseMethod

/-!
# Passing arguments on

A closure gets its arguments from a call, from `UseMethod`, from a host or from an
operator.  On the first three ways an argument that is omitted stays omitted, a
promise stays itself, and of anything else a promise is made (`Session.Passes`).
An operator promises each of its operands as the value that it is, the omitted
ones too (`Session.Wraps`).
-/

namespace CallByNeed

open SessionM

variable {s s' t t' u : Session} {env : EnvId} {v w : Value}

theorem Symbol.asTag?_bind (tag : Option Symbol) :
    (tag.bind asTag?).bind asTag? = tag.bind asTag? := by
  cases tag with
  | none => rfl
  | some name => cases hmissing : name.isMissing <;> simp [asTag?, hmissing]

/-- The arguments are handed on one by one, with their tags. -/
def Handed (R : Value → Value → Prop) : ArgList → ArgList → Prop :=
  List.Forall₂ fun arg passed =>
    passed.tag = arg.tag.bind Symbol.asTag? ∧ R arg.value passed.value

/-- What a list of arguments stands for where `...` stands for these. -/
def splice (dots args : ArgList) : ArgList :=
  args.flatMap fun arg => if arg.value.isEllipsis then dots else [arg]

namespace Session

/-- No promise is lost or changed. -/
def KeepsCells (s t : Session) : Prop :=
  ∀ ⦃id p⦄, s.promises.get? id = some p → t.promises.get? id = some p

/-- There are more promises, and the same frames. -/
structure AddsPromises (s t : Session) : Prop where
  heap : t.heap = s.heap
  cells : s.KeepsCells t

/-- An omitted argument and a promise are passed as they are, and of anything else a promise is
    made. -/
def Passes (s t : Session) (v w : Value) : Prop :=
  (v.IsSuspended ∧ w = v) ∨ (¬ v.IsSuspended ∧ ∃ id p, w = .promise id ∧
    s.promises.get? id = none ∧ t.promises.get? id = some p ∧ (p.expr = v ∨ p.value? = some v))

/-- The argument is promised as the value that it is, whatever it is. -/
def Wraps (s t : Session) (v w : Value) : Prop :=
  ∃ id, w = .promise id ∧ s.promises.get? id = none ∧ t.promises.get? id = some ⟨v, .kept v⟩

/-- What an operator applies its method with: every operand promised as the value that it is, the
    call of the operator with all of them, and the name of the operator. -/
structure Operates (s t : Session) (op : String) (args passed : ArgList) (call : Call)
    (generic : Value) : Prop where
  passed : Handed (s.Wraps t) args passed
  function : call.function = .symbol ⟨op⟩
  operands : call.args = args
  generic : generic.singleString? = some op
  adds : s.AddsPromises t

namespace AddsPromises

theorem refl (s : Session) : s.AddsPromises s := ⟨rfl, fun _ _ => id⟩

theorem trans (h₁ : s.AddsPromises t) (h₂ : t.AddsPromises u) : s.AddsPromises u :=
  ⟨h₂.heap.trans h₁.heap, fun _ _ h => h₂.cells (h₁.cells h)⟩

theorem of_same (hheap : t.heap = s.heap) (hpromises : t.promises = s.promises) :
    s.AddsPromises t :=
  ⟨hheap, fun _ _ h => hpromises ▸ h⟩

theorem fresh (h : s.AddsPromises t) {id : PromiseId} (hnone : t.promises.get? id = none) :
    s.promises.get? id = none := by
  cases hp : s.promises.get? id with
  | none => rfl
  | some p => cases hnone.symm.trans (h.cells hp)

/-- What `...` stands for is read off the frames. -/
theorem ellipsisArgs_run {dots : ArgList} (h : s.AddsPromises t)
    (hdots : ellipsisArgs env s = (.ok dots, s)) : ellipsisArgs env t = (.ok dots, t) := by
  -- the answer depends on the heap alone, and new promises leave that
  have hread (u : Session) (hu : u.heap = s.heap) :
      ellipsisArgs env u = ((ellipsisArgs env s).1, u) := by
    rcases hfind : s.heap.find env .ellipsis with e | _ | ⟨owner, value⟩
    · have hask {v : Session} (hv : v.heap = s.heap) :
          askHeap (fun h => h.find env .ellipsis) v = (.error (.failure e), v) :=
        askHeap_run_error (hv ▸ hfind)
      rw [ellipsisArgs, bind_run_error (hask hu), bind_run_error (hask rfl)]
    · have hask {v : Session} (hv : v.heap = s.heap) :
          askHeap (fun h => h.find env .ellipsis) v = (.ok none, v) :=
        askHeap_run_ok (hv ▸ hfind)
      rw [ellipsisArgs, bind_run_ok (hask hu), bind_run_ok (hask rfl)]
      rfl
    · have hask {v : Session} (hv : v.heap = s.heap) :
          askHeap (fun h => h.find env .ellipsis) v = (.ok (some (owner, value)), v) :=
        askHeap_run_ok (hv ▸ hfind)
      rw [ellipsisArgs, bind_run_ok (hask hu), bind_run_ok (hask rfl)]
      cases value with
      | dots args => rfl
      | symbol name =>
        dsimp only
        split <;> rfl
      | _ => rfl
  rw [hread t h.heap, hdots]

end AddsPromises

theorem Passes.within (hs : s.AddsPromises s') (ht : t.AddsPromises t') (h : s'.Passes t v w) :
    s.Passes t' v w := by
  refine h.imp_right fun ⟨hsuspended, id, p, hvalue, hnew, hp, hof⟩ => ?_
  exact ⟨hsuspended, id, p, hvalue, hs.fresh hnew, ht.cells hp, hof⟩

theorem Wraps.within (hs : s.AddsPromises s') (ht : t.AddsPromises t') (h : s'.Wraps t v w) :
    s.Wraps t' v w := by
  obtain ⟨id, hvalue, hnew, hp⟩ := h
  exact ⟨id, hvalue, hs.fresh hnew, ht.cells hp⟩

end Session

open Session

namespace SessionM

/-! ## One argument -/

/-- A new promise is added, and nothing else is done. -/
theorem newPromise_run (expr : Value) (state : PromiseState) (s : Session) :
    ∃ id t, newPromise expr state s = (.ok (.promise id), t) ∧ s.AddsPromises t ∧
      s.promises.get? id = none ∧ t.promises.get? id = some ⟨expr, state⟩ :=
  ⟨(s.promises.add ⟨expr, state⟩).1, { s with promises := (s.promises.add ⟨expr, state⟩).2 }, rfl,
    ⟨rfl, fun _ _ => PromiseStore.get?_add_of_some _⟩,
    by simp [PromiseStore.add, PromiseStore.get?], PromiseStore.get?_add_self _ _⟩

theorem suspend_run (env : EnvId) (expr : Value) (s : Session) :
    ∃ v t, suspend expr env s = (.ok v, t) ∧ s.AddsPromises t ∧ s.Passes t expr v := by
  -- a promise and the missing sentinel are passed on, of anything else a promise is made
  by_cases hsuspended : expr.IsSuspended
  · refine ⟨expr, s, ?_, .refl s, .inl ⟨hsuspended, rfl⟩⟩
    unfold suspend
    split
    · rfl
    · rename_i hne
      obtain hmissing | ⟨id, rfl⟩ := hsuspended
      · rw [if_pos hmissing]
        rfl
      · exact absurd rfl (hne id)
  · have hstate : ∃ state, suspend expr env s = newPromise expr state s := by
      unfold suspend
      split
      · exact absurd (.inr ⟨_, rfl⟩) hsuspended
      · rw [if_neg fun h => hsuspended (.inl h)]
        unfold promiseOf
        split <;> exact ⟨_, rfl⟩
    obtain ⟨state, hstate⟩ := hstate
    obtain ⟨id, t, hrun, hadds, hnew, hp⟩ := newPromise_run expr state s
    exact ⟨.promise id, t, hstate.trans hrun, hadds,
      .inr ⟨hsuspended, id, _, rfl, hnew, hp, .inl rfl⟩⟩

theorem newCall_run (function : Value) (args : ArgList) (s : Session) :
    ∃ call t, newCall function args s = (.ok call, t) ∧ call.function = function ∧
      call.args = args ∧ s.AddsPromises t :=
  ⟨_, { s with identities := s.identities + 1 }, rfl, rfl, rfl, .of_same rfl rfl⟩

theorem newString_run (text : String) (s : Session) :
    ∃ value t, newString text s = (.ok value, t) ∧ value.singleString? = some text ∧
      s.AddsPromises t :=
  ⟨_, { s with identities := s.identities + 1 }, rfl, rfl, .of_same rfl rfl⟩

theorem quoted_run (value : Value) (s : Session) :
    ∃ expr t, quoted value s = (.ok expr, t) ∧ s.AddsPromises t := by
  have hcall : ∃ expr t, quoted.quoteCall value s = (.ok expr, t) ∧ s.AddsPromises t := by
    obtain ⟨call, t, hrun, -, -, hadds⟩ :=
      newCall_run (.symbol ⟨SpecialForm.quote.name⟩) [.untagged value] s
    exact ⟨.call call, t, bind_run_ok hrun _, hadds⟩
  cases value with
  | symbol name => exact hcall
  | call c => exact hcall
  | _ => exact ⟨_, s, rfl, .refl s⟩

theorem hostArg_run (value : Value) (s : Session) :
    ∃ v t, hostArg value s = (.ok v, t) ∧ s.AddsPromises t ∧ s.Passes t value v := by
  -- as in `suspend_run`, but the promise has its value from the start
  by_cases hsuspended : value.IsSuspended
  · refine ⟨value, s, ?_, .refl s, .inl ⟨hsuspended, rfl⟩⟩
    unfold hostArg
    split
    · rfl
    · rename_i hne
      obtain hmissing | ⟨id, rfl⟩ := hsuspended
      · rw [if_pos hmissing]
        rfl
      · exact absurd rfl (hne id)
  · obtain ⟨expr, u, hquoted, hadds⟩ := quoted_run value s
    obtain ⟨id, t, hrun, hadds', hnew, hp⟩ := newPromise_run expr (.kept value) u
    refine ⟨.promise id, t, ?_, hadds.trans hadds',
      .inr ⟨hsuspended, id, _, rfl, hadds.fresh hnew, hp, .inr rfl⟩⟩
    unfold hostArg
    split
    · exact absurd (.inr ⟨_, rfl⟩) hsuspended
    · rw [if_neg fun h => hsuspended (.inl h), bind_run_ok hquoted]
      exact hrun

theorem newKept_run (value : Value) (s : Session) :
    ∃ v t, newKept value value s = (.ok v, t) ∧ s.AddsPromises t ∧ s.Wraps t value v := by
  obtain ⟨id, t, hrun, hadds, hnew, hp⟩ := newPromise_run value (.kept value) s
  exact ⟨.promise id, t, hrun, hadds, id, rfl, hnew, hp⟩

/-! ## One argument after the other -/

theorem mapM_run {R : Session → Session → Value → Value → Prop} {f : Value → SessionM Value}
    (hwithin : ∀ {s s' t t' v w}, s.AddsPromises s' → t.AddsPromises t' → R s' t v w → R s t' v w)
    (hf : ∀ v s, ∃ w t, f v s = (.ok w, t) ∧ s.AddsPromises t ∧ R s t v w) (args : ArgList)
    (s : Session) :
    ∃ passed t,
      (args.mapM fun arg => do return Arg.new arg.tag (← f arg.value) : SessionM ArgList) s =
        (.ok passed, t) ∧ s.AddsPromises t ∧ Handed (R s t) args passed := by
  induction args generalizing s with
  | nil => exact ⟨[], s, rfl, .refl s, .nil⟩
  | cons arg rest ih =>
    obtain ⟨first, u, hfirst, hadds, hpasses⟩ := hf arg.value s
    obtain ⟨others, t, hothers, hadds', hrest⟩ := ih u
    refine ⟨Arg.new arg.tag first :: others, t, ?_, hadds.trans hadds',
      .cons ⟨rfl, hwithin (.refl s) hadds' hpasses⟩ ?_⟩
    · rw [List.mapM_cons, bind_run_ok (bind_run_ok hfirst _), bind_run_ok hothers]
      rfl
    · exact hrest.imp fun _ _ h => ⟨h.1, hwithin hadds (.refl t) h.2⟩

/-- The arguments of a call are passed with `...` replaced by what it stands for. -/
theorem suspendArgs_run {dots : ArgList} (hdots : ellipsisArgs env s = (.ok dots, s))
    (args : ArgList) :
    ∃ passed t, suspendArgs args env s = (.ok passed, t) ∧ s.AddsPromises t ∧
      Handed (s.Passes t) (splice dots args) passed := by
  induction args generalizing s with
  | nil => exact ⟨[], s, rfl, .refl s, .nil⟩
  | cons arg rest ih =>
    -- what was made of the first argument does not matter for the others
    have hrest {u : Session} {given first : ArgList} (hadds : s.AddsPromises u)
        (hfirst : Handed (s.Passes u) given first) :
        ∃ passed t, (do return first ++ (← suspendArgs rest env) : SessionM ArgList) u =
          (.ok passed, t) ∧ s.AddsPromises t ∧
          Handed (s.Passes t) (given ++ splice dots rest) passed := by
      obtain ⟨others, t, hothers, hadds', hrest⟩ := ih (hadds.ellipsisArgs_run hdots)
      refine ⟨first ++ others, t, bind_run_ok hothers _, hadds.trans hadds', ?_⟩
      exact List.rel_append (hfirst.imp fun _ _ h => ⟨h.1, h.2.within (.refl s) hadds'⟩)
        (hrest.imp fun _ _ h => ⟨h.1, h.2.within hadds (.refl t)⟩)
    rw [suspendArgs, splice, List.flatMap_cons]
    split
    · obtain ⟨first, u, hrun, hadds, hfirst⟩ := mapM_run (R := Session.Passes) Passes.within
        (suspend_run env) dots s
      rw [bind_run_ok hdots, bind_run_ok hrun]
      exact hrest hadds hfirst
    · obtain ⟨v, u, hrun, hadds, hpasses⟩ := suspend_run env arg.value s
      rw [bind_run_ok hrun]
      exact hrest hadds (.cons ⟨rfl, hpasses⟩ .nil)

end SessionM

/-! ## The ways into a closure -/

namespace Evaluator

variable (ev : Evaluator) {r : Session}

theorem evaluateCall_run {call : Call} {closure : Closure} {dots : ArgList}
    (hfunction : ev.functionOf call env r = (.ok (.closure closure), s))
    (hdots : ellipsisArgs env s = (.ok dots, s)) :
    ∃ passed t, Handed (s.Passes t) (splice dots call.args) passed ∧
      ev.evaluateCall call env r = ev.invoke closure env call passed [] t := by
  obtain ⟨passed, t, hrun, -, hpassed⟩ := suspendArgs_run hdots call.args
  refine ⟨passed, t, hpassed, ?_⟩
  rw [evaluateCall, bind_run_ok hfunction]
  exact bind_run_ok hrun _

theorem callFunction_run (function : Value) (args : ArgList) (env : EnvId) (s : Session) :
    ∃ passed call t, Handed (s.Passes t) args passed ∧
      ev.callFunction function args env s = ev (.apply function call passed env []) t := by
  obtain ⟨passed, u, hrun, -, hpassed⟩ :=
    mapM_run (R := Session.Passes) Passes.within hostArg_run args s
  obtain ⟨call, t, hcall, -, -, hadds⟩ := newCall_run function args u
  refine ⟨passed, call, t, hpassed.imp fun _ _ h => ⟨h.1, h.2.within (.refl s) hadds⟩, ?_⟩
  rw [callFunction, bind_run_ok hrun, bind_run_ok hcall]

theorem dispatchOperator_run_operates {op : String} {args : ArgList} {table : Option EnvId}
    {method : Value} (htable : SessionM.methodsTable r.namespaces.baseEnv r = (.ok table, r))
    (hmethod : ev.firstMethod env table (operatorMethodNames op args) r = (.ok (some method), s)) :
    ∃ passed call generic t, s.Operates t op args passed call generic ∧
      ev.dispatchOperator op env args r = (do
        return some (← ev (.apply method call passed env [(⟨".Generic"⟩, generic)])) :
          SessionM _) t := by
  obtain ⟨passed, u, hrun, hadds, hpassed⟩ :=
    mapM_run (R := Session.Wraps) Wraps.within newKept_run args s
  obtain ⟨call, v, hcall, hfunction, hargs, hadds₁⟩ := newCall_run (.symbol ⟨op⟩) args u
  obtain ⟨generic, t, hgeneric, hname, hadds₂⟩ := newString_run op v
  have hadds' : u.AddsPromises t := hadds₁.trans hadds₂
  refine ⟨passed, call, generic, t,
    ⟨hpassed.imp fun _ _ h => ⟨h.1, h.2.within (.refl s) hadds'⟩, hfunction, hargs, hname,
      hadds.trans hadds'⟩, ?_⟩
  rw [dispatchOperator, get_bind_run, bind_run_ok htable, bind_run_ok hmethod]
  dsimp only
  rw [bind_run_ok hrun, bind_run_ok hcall, bind_run_ok hgeneric]

theorem dispatchOperator_run_method {op : String} {args : ArgList} {table : Option EnvId}
    {method : Value} (htable : SessionM.methodsTable r.namespaces.baseEnv r = (.ok table, r))
    (hmethod : ev.firstMethod env table (operatorMethodNames op args) r = (.ok (some method), s)) :
    ∃ passed call extra t, Handed (s.Wraps t) args passed ∧
      ev.dispatchOperator op env args r =
        (do return some (← ev (.apply method call passed env extra)) : SessionM _) t := by
  obtain ⟨passed, call, generic, t, hoperates, hrun⟩ :=
    ev.dispatchOperator_run_operates htable hmethod
  exact ⟨passed, call, _, t, hoperates.passed, hrun⟩

end Evaluator

end CallByNeed
