import CallByNeed.Proofs.Relocation.Evaluation

/-!
# Loops in a relocated session

A loop body has no promises in it that an analysis would look at, so the same loop is
found; and of what a fused run reads only the attributes may have promises in them,
which are passed on.  With the loops, the evaluator of any fuel carries over.
-/

namespace CallByNeed

namespace Relocation

open Renaming Carries

variable {ρ : Relocation} {α β γ δ : Type}

/-! ## Analyses -/

/-- Both find the loop unfit, or both find something, under the same guard. -/
def Analyzes (ρ : Relocation) (f : α → β) (x : AnalysisM α) (y : AnalysisM β) : Prop :=
  ∀ guard, ρ.Carries (Option.map (Prod.map f id)) (x guard : SessionM (Option (α × _))) (y guard)

namespace Analyzes

variable {f : α → β} {g : γ → δ} {x : AnalysisM α} {y : AnalysisM β}

theorem pure {a : α} {b : β} (h : f a = b) : ρ.Analyzes f (pure a) (pure b) :=
  fun _ => .pure (by rw [← h]; rfl)

theorem unfit : ρ.Analyzes f failure failure := fun _ => .pure rfl

theorem unfit_bind {k : γ → AnalysisM α} {k' : δ → AnalysisM β} :
    ρ.Analyzes f (failure >>= k) (failure >>= k') := fun _ => .pure rfl

theorem bind {k : α → AnalysisM γ} {k' : β → AnalysisM δ} (hx : ρ.Analyzes f x y)
    (hk : ∀ a, ρ.Analyzes g (k a) (k' (f a))) : ρ.Analyzes g (x >>= k) (y >>= k') := by
  intro guard
  refine (hx guard).bind fun found => ?_
  cases found with
  | none => exact .pure rfl
  | some result => exact hk result.1 result.2

theorem ite {p q : Prop} [Decidable p] [Decidable q] {x' : AnalysisM α} {y' : AnalysisM β}
    (hpq : q ↔ p) (hx : ρ.Analyzes f x y) (hx' : ρ.Analyzes f x' y') :
    ρ.Analyzes f (if p then x else x') (if q then y else y') :=
  rel_ite (R := ρ.Analyzes f) hpq (fun _ => hx) fun _ => hx'

theorem modify (change : List GuardedName → List GuardedName) :
    ρ.Analyzes id (modify change : AnalysisM _) (modify change) := fun _ => .pure rfl

theorem option (found : Option α) :
    ρ.Analyzes id (StateT.lift (OptionT.mk (Pure.pure found)) : AnalysisM α)
      (StateT.lift (OptionT.mk (Pure.pure found))) := by
  intro guard
  cases found <;> exact .pure rfl

theorem lift {x : SessionM α} {y : SessionM β} (h : ρ.Carries f x y) :
    ρ.Analyzes f (x : AnalysisM α) (y : AnalysisM β) := by
  intro guard
  refine Carries.bind (f := Option.map f) (h.map fun _ => rfl) fun found => ?_
  cases found with
  | none => exact .pure rfl
  | some a => exact .pure rfl

end Analyzes

/-! ## Fused runs -/

/-- Both give up for the same reason, or neither does. -/
def Fuses (ρ : Relocation) (f : α → β) (x : FusedM α) (y : FusedM β) : Prop :=
  ρ.Carries (Except.map f) x.run y.run

namespace Fuses

variable {f : α → β} {g : γ → δ} {x : FusedM α} {y : FusedM β}

theorem pure {a : α} {b : β} (h : f a = b) : ρ.Fuses f (pure a) (pure b) :=
  Carries.pure (by rw [← h]; rfl)

theorem giveUp (bailout : Bailout) : ρ.Fuses f (throw bailout) (throw bailout) :=
  Carries.pure rfl

theorem bind {k : α → FusedM γ} {k' : β → FusedM δ} (hx : ρ.Fuses f x y)
    (hk : ∀ a, ρ.Fuses g (k a) (k' (f a))) : ρ.Fuses g (x >>= k) (y >>= k') := by
  refine Carries.bind hx fun outcome => ?_
  cases outcome with
  | error bailout => exact .pure rfl
  | ok a => exact hk a

theorem ite {p q : Prop} [Decidable p] [Decidable q] {x' : FusedM α} {y' : FusedM β}
    (hpq : q ↔ p) (hx : ρ.Fuses f x y) (hx' : ρ.Fuses f x' y') :
    ρ.Fuses f (if p then x else x') (if q then y else y') :=
  rel_ite (R := ρ.Fuses f) hpq (fun _ => hx) fun _ => hx'

theorem lift {x : SessionM α} {y : SessionM β} (h : ρ.Carries f x y) :
    ρ.Fuses f (x : FusedM α) (y : FusedM β) :=
  Carries.bind h fun _ => .pure rfl

theorem get_bind {k : Session → FusedM γ} {k' : Session → FusedM δ}
    (hk : ∀ s, ρ.Fuses g (k s) (k' (ρ.session s))) :
    ρ.Fuses g ((MonadState.get : SessionM Session) >>= k)
      ((MonadState.get : SessionM Session) >>= k') :=
  Carries.get_bind hk

theorem get_bind_of {k : Session → FusedM γ} {k' : Session → FusedM δ}
    (hk : ∀ s, ∃ y, ρ.Fuses g (k s) y ∧ (ρ.Covers s.promises → k' (ρ.session s) = y)) :
    ρ.Fuses g ((MonadState.get : SessionM Session) >>= k)
      ((MonadState.get : SessionM Session) >>= k') :=
  Carries.get_bind_of hk

theorem ofBailout (e : Except Bailout α) :
    ρ.Fuses id (FusedM.ofBailout e) (FusedM.ofBailout e) := by
  cases e with
  | error bailout => exact giveUp bailout
  | ok a => exact pure rfl

theorem forM {k k' : α → FusedM PUnit} (h : ∀ a, ρ.Fuses id (k a) (k' a)) (items : List α) :
    ρ.Fuses id (items.forM k) (items.forM k') := by
  induction items with
  | nil => exact pure rfl
  | cons a rest ih => exact (h a).bind fun _ => ih

theorem mapM {k : α → FusedM γ} {k' : α → FusedM δ} (h : ∀ a, ρ.Fuses g (k a) (k' a))
    (items : List α) : ρ.Fuses (List.map g) (items.mapM k) (items.mapM k') := by
  induction items with
  | nil => exact pure rfl
  | cons a rest ih =>
    rw [List.mapM_cons, List.mapM_cons]
    exact (h a).bind fun c => ih.bind fun cs => pure rfl

end Fuses

/-! ## What a loop looks at -/

instance : Renames DoubleVector where
  rename r v := { v with attributes := rename r v.attributes }

theorem isPlain_move (arg : Arg Value) : (ρ.move arg).isPlain = arg.isPlain := by
  simp [Arg.isPlain]

theorem all_isPlain_move (args : ArgList) :
    (ρ.move args).all Arg.isPlain = args.all Arg.isPlain := by
  show (args.map _).all _ = _
  rw [List.all_map]
  exact congrArg args.all (funext isPlain_move)

theorem plainValues?_move (args : ArgList) :
    plainValues? (ρ.move args) = ρ.move (plainValues? args) := by
  unfold plainValues?
  rw [all_isPlain_move]
  split
  · show some ((args.map _).map _) = some ((args.map _).map _)
    rw [List.map_map, List.map_map]
    rfl
  · rfl

theorem namedCall?_move (v : Value) : (ρ.move v).namedCall? = ρ.move v.namedCall? := by
  have hshape := ρ.reshaped v
  generalize ρ.move v = v' at *
  cases hshape with
  | call c =>
    obtain ⟨identity, function, args⟩ := c
    show (Value.call ⟨identity, ρ.move function, ρ.move args⟩).namedCall? = _
    have hshape := ρ.reshaped function
    generalize ρ.move function = function' at *
    cases hshape <;> rfl
  | _ => rfl

theorem unclassedDoubles?_move (v : Value) :
    (ρ.move v).unclassedDoubles? = ρ.move v.unclassedDoubles? := by
  have hshape := ρ.reshaped v
  generalize ρ.move v = v' at *
  cases hshape with
  | vector x =>
    obtain ⟨identity, elements, attributes⟩ := x
    cases elements with
    | double xs =>
      have hclass : (ρ.move attributes).contains .classAttribute =
        attributes.contains .classAttribute := contains_rename _
      show (if (ρ.move attributes).contains .classAttribute then none
        else some (ρ.move ⟨xs, attributes⟩ : DoubleVector)) =
        ρ.move (if attributes.contains .classAttribute then none else some ⟨xs, attributes⟩)
      rw [hclass]
      cases attributes.contains .classAttribute <;> rfl
    | _ => rfl
  | _ => rfl

theorem ofVector_move (v : DoubleVector) : Lane.ofVector (ρ.move v) = .ofVector v := by
  have hlength : (ρ.move v.attributes).entries.length = v.attributes.entries.length :=
    length_rename _
  show Lane.ofVector ⟨v.values, ρ.move v.attributes⟩ = _
  simp only [Lane.ofVector, extents?_rename, hlength]

theorem laneOf_move (given : List (Symbol × DoubleVector)) :
    (ρ.move given).map laneOf = given.map laneOf := by
  show (given.map _).map _ = _
  rw [List.map_map]
  exact List.map_congr_left fun (name, v) _ => congrArg (Prod.mk name) (ofVector_move v)

namespace CarriesAll

variable {ev : Evaluator} (hev : ρ.CarriesAll ev)
include hev

/-! ## Reading a loop -/

theorem loopOp (env : EnvId) (name : Symbol) :
    ρ.Analyzes id (ev.loopOp env name) (ev.loopOp env name) := by
  refine Analyzes.bind (.lift (hev.function? env name).attempt) fun found => ?_
  rcases found with _ | _ | function
  · exact .unfit
  · exact .unfit
  · have hshape := ρ.reshaped function
    rw [show Option.map ρ.move (some (some function)) = some (some (ρ.move function)) from rfl]
    generalize ρ.move function = function' at *
    cases hshape with
    | builtin identity builtin =>
      dsimp only
      cases builtin.loopOp? with
      | some op => exact (Analyzes.modify _).bind fun _ => .pure rfl
      | none => exact .unfit
    | _ => exact .unfit

end CarriesAll

mutual

theorem loopExprOf_carries {ev : Evaluator} (hev : ρ.CarriesAll ev) (env : EnvId)
    (var accumulator : Symbol) (expr : Value) :
    ρ.Analyzes id (ev.loopExprOf env var accumulator expr)
      (ev.loopExprOf env var accumulator (ρ.move expr)) := by
  match expr with
  | .symbol name => exact .ite Iff.rfl (.pure rfl) (.ite Iff.rfl .unfit (.pure rfl))
  | .vector ⟨identity, elements, attributes⟩ =>
    have hempty : (ρ.move attributes).isEmpty = attributes.isEmpty := isEmpty_rename
    have hmoved : ρ.move (Value.vector ⟨identity, elements, attributes⟩) =
        .vector ⟨identity, elements, ρ.move attributes⟩ := rename_vector _
    rw [hmoved]
    cases elements with
    | double xs =>
      unfold Evaluator.loopExprOf
      split
      · exact .ite (by rw [hempty]) (.pure rfl) .unfit
      · exact .unfit
    | _ => exact .unfit
  | .call ⟨identity, function, args⟩ =>
    have hmoved : ρ.move (Value.call ⟨identity, function, args⟩) =
        .call ⟨identity, ρ.move function, ρ.move args⟩ := rename_call _
    rw [hmoved]
    have hshape := ρ.reshaped function
    generalize ρ.move function = function' at *
    cases hshape with
    | symbol name =>
      refine .ite (by rw [all_isPlain_move]) ?_ .unfit
      refine (hev.loopOp env name).bind fun op => ?_
      exact (loopExprsOf_carries hev env var accumulator args).bind fun operands => .option _
    | _ => exact .unfit
  | .null | .list _ | .dots _ | .closure _ | .builtin _ _ | .promise _ | .environment _ =>
    exact .unfit

theorem loopExprsOf_carries {ev : Evaluator} (hev : ρ.CarriesAll ev) (env : EnvId)
    (var accumulator : Symbol) (args : List (Arg Value)) :
    ρ.Analyzes id (ev.loopExprsOf env var accumulator args)
      (ev.loopExprsOf env var accumulator (ρ.move args)) := by
  match args with
  | [] => exact .pure rfl
  | ⟨tag, value⟩ :: rest =>
    refine (loopExprOf_carries hev env var accumulator value).bind fun operand => ?_
    exact (loopExprsOf_carries hev env var accumulator rest).bind fun operands => .pure rfl

end

namespace CarriesAll

variable {ev : Evaluator} (hev : ρ.CarriesAll ev)
include hev

theorem statementOf (env : EnvId) (body : Value) :
    ρ.Analyzes ρ.move (ev.statementOf env body) (ev.statementOf env (ρ.move body)) := by
  by_cases hblock : ∃ args, body.namedCall? = some (⟨"\x7b"⟩, args)
  · obtain ⟨args, hblock⟩ := hblock
    have hmoved : (ρ.move body).namedCall? = some (⟨"\x7b"⟩, ρ.move args) := by
      rw [namedCall?_move, hblock]
      rfl
    simp only [Evaluator.statementOf, hblock, hmoved, plainValues?_move]
    rcases plainValues? args with _ | (_ | ⟨statement, _ | _⟩)
    case some.cons.nil =>
      exact (hev.loopOp env _).bind fun op => .ite Iff.rfl (.pure rfl) .unfit
    all_goals exact .unfit
  · have hself (b : Value) (hb : ¬∃ args, b.namedCall? = some (⟨"\x7b"⟩, args)) :
        ev.statementOf env b = Pure.pure b := by
      unfold Evaluator.statementOf
      split
      · rename_i args hcall
        exact absurd ⟨args, hcall⟩ hb
      · rfl
    have hmoved : ¬∃ args, (ρ.move body).namedCall? = some (⟨"\x7b"⟩, args) := by
      rintro ⟨args, hargs⟩
      rw [namedCall?_move] at hargs
      rcases hbody : body.namedCall? with _ | ⟨name, given⟩ <;> rw [hbody] at hargs <;> cases hargs
      exact hblock ⟨given, hbody⟩
    rw [hself body hblock, hself (ρ.move body) hmoved]
    exact .pure rfl

omit hev in
/-- A call of a named function stays one. -/
theorem named {f : α → β} {k : Symbol → ArgList → AnalysisM α} {k' : Symbol → ArgList → AnalysisM β}
    (h : ∀ name args, ρ.Analyzes f (k name args) (k' name (ρ.move args))) (v : Value) :
    ρ.Analyzes f (match v.namedCall? with | some (name, args) => k name args | _ => failure)
      (match (ρ.move v).namedCall? with | some (name, args) => k' name args | _ => failure) := by
  rw [namedCall?_move]
  rcases v.namedCall? with _ | ⟨name, args⟩
  · exact .unfit
  · exact h name args

theorem accumulationOf (env : EnvId) (var : Symbol) (statement : Value) :
    ρ.Analyzes (Prod.map id ρ.move) (ev.accumulationOf env var statement)
      (ev.accumulationOf env var (ρ.move statement)) := by
  refine named (fun assign args => ?_) statement
  rw [plainValues?_move]
  rcases plainValues? args with _ | (_ | ⟨target, _ | ⟨value, _ | _⟩⟩)
  case some.cons.cons.nil =>
    refine (hev.loopOp env assign).bind fun op => .ite Iff.rfl ?_ .unfit_bind
    have hshape := ρ.reshaped target
    dsimp only [rename_cons]
    generalize ρ.move target = target' at *
    cases hshape with
    | symbol accumulator =>
      refine .ite Iff.rfl .unfit_bind (named (fun plus operands => ?_) value)
      rw [plainValues?_move]
      rcases plainValues? operands with _ | (_ | ⟨left, rest⟩)
      · exact .unfit
      · exact .unfit
      · have hshape := ρ.reshaped left
        rw [show ρ.move (some (left :: rest)) = some (ρ.move left :: ρ.move rest) from rfl]
        generalize ρ.move left = left' at *
        cases hshape with
        | symbol left =>
          rcases rest with _ | ⟨increment, _ | _⟩
          · exact .unfit
          · refine .ite Iff.rfl ?_ .unfit_bind
            exact (hev.loopOp env plus).bind fun op => .ite Iff.rfl (.pure rfl) .unfit_bind
          · exact .unfit
        | _ => exact .unfit
    | _ => exact .unfit
  all_goals exact .unfit

theorem accumulationBody (env : EnvId) (var : Symbol) (body : Value) :
    ρ.Analyzes id (ev.accumulationBody env var body)
      (ev.accumulationBody env var (ρ.move body)) := by
  refine (hev.statementOf env body).bind fun statement => ?_
  refine (hev.accumulationOf env var statement).bind fun (accumulator, increment) => ?_
  exact (loopExprOf_carries hev env var accumulator increment).bind fun expr => .pure rfl

theorem analyze (env : EnvId) (var : Symbol) (body : Value) :
    ρ.Carries id (ev.analyze env var body) (ev.analyze env var (ρ.move body)) := by
  refine (hev.accumulationBody env var body []).bind fun found => ?_
  rcases found with _ | ⟨⟨accumulator, increment⟩, guard⟩
  · exact .pure rfl
  · exact get_bind fun s => .ite Iff.rfl (.pure rfl) (.pure rfl)

/-! ## Running on whole vectors -/

omit hev in
theorem requireForced (env : EnvId) (name : Symbol) :
    ρ.Fuses id (FusedM.requireForced env name) (FusedM.requireForced env name) := by
  refine Fuses.get_bind_of fun s => ?_
  have hmoved : (ρ.session s).heap.find env name = ρ.move (s.heap.find env name) :=
    find_move s.heap env name
  rw [hmoved]
  rcases s.heap.find env name with e | _ | ⟨owner, value⟩
  · exact ⟨_, .pure rfl, fun _ => rfl⟩
  · exact ⟨_, .pure rfl, fun _ => rfl⟩
  · have hshape := ρ.reshaped value
    rw [show ρ.move (Except.ok (some (owner, value)) : Except EvalError _) =
      .ok (some (owner, ρ.move value)) from rfl]
    generalize ρ.move value = value' at *
    cases hshape with
    | promise p =>
      refine ⟨if s.promises.isWaiting p then throw (.unforcedOperand name) else return,
        Fuses.ite Iff.rfl (.giveUp _) (.pure rfl), fun hs => ?_⟩
      have hwaiting : (ρ.session s).promises.isWaiting (ρ.promise p) =
          s.promises.isWaiting p := by
        change (ρ.store s.promises).isWaiting (ρ.promise p) = _
        rw [PromiseStore.isWaiting, ρ.get? hs, PromiseStore.isWaiting]
        cases s.promises.get? p with
        | none => rfl
        | some cell => exact congrArg not (isKept_rename _)
      dsimp only
      rw [hwaiting]
    | _ => exact ⟨_, .pure rfl, fun _ => rfl⟩

theorem checkGuard (env : EnvId) (guarded : GuardedName) :
    ρ.Fuses id (ev.checkGuard env guarded) (ev.checkGuard env guarded) := by
  refine (Fuses.lift (hev.function? env guarded.name).attempt).bind fun found => ?_
  rcases found with _ | _ | function
  · exact .giveUp _
  · exact .giveUp _
  · have hshape := ρ.reshaped function
    rw [show Option.map ρ.move (some (some function)) = some (some (ρ.move function)) from rfl]
    generalize ρ.move function = function' at *
    cases hshape with
    | builtin identity builtin => exact Fuses.ite Iff.rfl (.pure rfl) (.giveUp _)
    | _ => exact .giveUp _

theorem readAccumulator (env : EnvId) (name : Symbol) :
    ρ.Fuses (Prod.map id ρ.move) (ev.readAccumulator env name) (ev.readAccumulator env name) := by
  refine (Fuses.lift (hev.lookup env name).attempt).bind fun found => ?_
  cases found with
  | none => exact .giveUp _
  | some value =>
    dsimp only [Option.map_some]
    rw [unclassedDoubles?_move]
    cases value.unclassedDoubles? with
    | none => exact .giveUp _
    | some v =>
      obtain ⟨values, attributes⟩ := v
      rw [show ρ.move (some (⟨values, attributes⟩ : DoubleVector)) =
        some ⟨values, ρ.move attributes⟩ from rfl]
      dsimp only
      rcases values.toList with _ | ⟨x, _ | _⟩
      · exact .giveUp _
      · exact .pure rfl
      · exact .giveUp _

theorem readInvariant (env : EnvId) (name : Symbol) :
    ρ.Fuses ρ.move (ev.readInvariant env name) (ev.readInvariant env name) := by
  refine (Fuses.lift (hev.lookup env name).attempt).bind fun found => ?_
  cases found with
  | none => exact .giveUp _
  | some value =>
    dsimp only [Option.map_some]
    rw [unclassedDoubles?_move]
    cases value.unclassedDoubles? with
    | none => exact .giveUp _
    | some v => exact .pure rfl

omit hev in
theorem bindResult (env : EnvId) (name : Symbol) (elements : Elements) (attributes : Attributes) :
    ρ.Fuses id (FusedM.bindResult env name elements attributes)
      (FusedM.bindResult env name elements (ρ.move attributes)) := by
  refine (Fuses.lift (newVector elements attributes)).bind fun value => ?_
  refine (Fuses.lift (bindIn env name value).attempt).bind fun found => ?_
  cases found with
  | none => exact .giveUp _
  | some _ => exact .pure rfl

theorem fusedRun (loop : Accumulation) (env : EnvId) (var : Symbol) (sequence : Value) :
    ρ.Fuses id (ev.fusedRun loop env var sequence)
      (ev.fusedRun loop env var (ρ.move sequence)) := by
  refine (Fuses.forM (requireForced env) _).bind fun _ => ?_
  refine (Fuses.forM (hev.checkGuard env) _).bind fun _ => ?_
  rw [plainDoubles?_rename]
  cases sequence.plainDoubles? with
  | none => exact .giveUp _
  | some index =>
    dsimp only
    cases index.back? with
    | none => exact .giveUp _
    | some last =>
      refine (hev.readAccumulator env loop.accumulator).bind fun (start, attributes) => ?_
      refine (Fuses.mapM (hev.readInvariant env) _).bind fun given => ?_
      refine Fuses.get_bind fun s => ?_
      have hlane : loop.increment.evaluate index (ρ.move given) s.kernels =
          loop.increment.evaluate index given s.kernels :=
        LoopExpr.evaluate_given (laneOf_move given) _
      show ρ.Fuses _ _ (FusedM.ofBailout (loop.increment.evaluate index (ρ.move given) s.kernels)
        >>= _)
      rw [hlane]
      refine (Fuses.ofBailout _).bind fun lane => (Fuses.ofBailout _).bind fun increments => ?_
      refine (Fuses.ofBailout _).bind fun total => ?_
      exact (bindResult env _ _ attributes).bind fun _ => bindResult env _ _ .empty

/-! ## Running one iteration at a time -/

theorem iterate (env : EnvId) (var : Symbol) (body : Value) (elements : List Elements) :
    ρ.Carries id (ev.iterate env var body elements)
      (ev.iterate env var (ρ.move body) elements) := by
  induction elements with
  | nil => exact .pure rfl
  | cons element rest ih =>
    refine (newVector element .empty).bind fun value => (bindIn env var value).bind fun _ => ?_
    exact (hev.evaluate body env).bind fun _ => ih

theorem genericRun (env : EnvId) (var : Symbol) (sequence body : Value) :
    ρ.Carries id (ev.genericRun env var sequence body)
      (ev.genericRun env var (ρ.move sequence) (ρ.move body)) := by
  have hlength : (ρ.move sequence).length = sequence.length := length_value_rename
  have htype : (ρ.move sequence).typeName = sequence.typeName := typeName_rename
  have hshape := ρ.reshaped sequence
  generalize ρ.move sequence = sequence' at *
  cases hshape with
  | vector v => exact hev.iterate env var body v.elements.singles
  | _ =>
    unfold Evaluator.genericRun
    dsimp only
    rw [hlength, htype]
    exact .ite Iff.rfl (.pure rfl) (fail _)

/-! ## Loop instances -/

theorem ensureAnalyzed (call : Call) (env : EnvId) (var : Symbol) (body : Value) :
    ρ.Carries id (ev.ensureAnalyzed call env var body)
      (ev.ensureAnalyzed (ρ.move call) env var (ρ.move body)) := by
  refine get_bind fun s => .ite ?_ (.pure rfl) ?_
  · show ((ρ.move s.loops).status? (ρ.move call)).isSome = true ↔ _
    rw [status?_rename]
    rfl
  · refine (count _).bind fun _ => (hev.analyze env var body).bind fun found => ?_
    exact modifyGet (fun _ => le_rfl) fun s _ _ =>
      congrArg (fun loops => ((), { ρ.session s with loops })) (insert_rename s.loops _)

theorem tryFused (call : Call) (env : EnvId) (var : Symbol) (sequence : Value) :
    ρ.Carries id (ev.tryFused call env var sequence)
      (ev.tryFused (ρ.move call) env var (ρ.move sequence)) := by
  refine get_bind fun s => ?_
  have hstatus : (ρ.session s).loops.status? (ρ.move call) = s.loops.status? call :=
    status?_rename _
  rw [hstatus]
  cases (s.loops.status? call).bind LoopStatus.accumulation? with
  | none => exact .pure rfl
  | some loop =>
    refine .ite (by rw [length_value_rename]) (.pure rfl) ?_
    refine Carries.bind (hev.fusedRun loop env var sequence) fun outcome => ?_
    cases outcome with
    | ok _ => exact (setLoopStatus call _).bind fun _ => (count _).bind fun _ => .pure rfl
    | error _ => exact (setLoopStatus call _).bind fun _ => (count _).bind fun _ => .pure rfl

theorem runLoop (call : Call) (env : EnvId) (var : Symbol) (sequence body : Value) :
    ρ.Carries ρ.move (ev.runLoop call env var sequence body)
      (ev.runLoop (ρ.move call) env var (ρ.move sequence) (ρ.move body)) := by
  have hgeneric := hev.genericRun env var sequence body
  refine get_bind fun s => .ite Iff.rfl ?_ (hgeneric.bind fun _ => .pure rfl)
  refine (hev.ensureAnalyzed call env var body).bind fun _ => ?_
  refine (hev.tryFused call env var sequence).bind fun fused => .ite Iff.rfl (.pure rfl) ?_
  exact (count _).bind fun _ => hgeneric.bind fun _ => .pure rfl

/-! ## Evaluators -/

theorem step : ρ.CarriesAll ev.step := fun task =>
  match task with
  | .evaluate expr env => hev.evaluateExpr expr env
  | .apply function call args env extra => hev.applyValue function call args env extra
  | .loop call env var sequence body => hev.runLoop call env var sequence body

end CarriesAll

/-- The evaluator of any fuel does the same with the promises relocated. -/
theorem carriesAll_evaluator (ρ : Relocation) (fuel : Nat) : ρ.CarriesAll (evaluator fuel) := by
  induction fuel with
  | zero => exact fun _ => exhausted
  | succ fuel ih => exact ih.step

end Relocation

end CallByNeed
