import CallByNeed.Proofs.LoopTable
import CallByNeed.Proofs.Twins.Evaluation

/-!
# Loops keep twins in step

An analysis finds the same loop on both sides, and a fused run gives up on both
sides for the same reason or on neither.  Of the variables that a loop reads only
the numbers and the extents count (`Lane.ofVector`), and those are the same on
both sides.  With that, the evaluator of any fuel keeps twins in step.
-/

namespace CallByNeed

open Bridge

variable {α β γ : Type}

/-! ## Records of loops -/

namespace Renaming

variable {r : Renaming} {call : Call}

theorem status?_rename (table : LoopTable) :
    (rename r table).status? (rename r call) = table.status? call := by
  obtain ⟨instances⟩ := table
  show (List.find? _ (instances.map _)).map _ = _
  rw [List.find?_map, Option.map_map]
  rfl

theorem insert_rename (table : LoopTable) (status : LoopStatus) :
    (rename r table).insert (rename r call) status = rename r (table.insert call status) := by
  obtain ⟨instances⟩ := table
  show LoopTable.mk (_ :: List.filter _ (instances.map _)) = LoopTable.mk (_ :: List.map _ _)
  rw [List.filter_map]
  rfl

theorem set_rename (table : LoopTable) (status : LoopStatus) :
    (rename r table).set (rename r call) status = rename r (table.set call status) := by
  obtain ⟨instances⟩ := table
  show LoopTable.mk (List.map _ (instances.map _)) = LoopTable.mk (List.map _ (List.map _ _))
  rw [List.map_map, List.map_map]
  refine congrArg LoopTable.mk (List.map_congr_left fun known _ => ?_)
  show (if known.call.identity == call.identity then _ else _) = rename r (ite _ _ _)
  split <;> rfl

@[simp] theorem isKept_rename (p : Promise) : (rename r p).isKept = p.isKept := by
  obtain ⟨_, _ | _⟩ := p <;> rfl

@[simp] theorem plainDoubles?_rename {v : Value} :
    (rename r v).plainDoubles? = v.plainDoubles? := by
  cases v with
  | vector v =>
    obtain ⟨identity, elements, attributes⟩ := v
    rw [rename_vector, rename_vec]
    cases elements with
    | double xs => simp only [Value.plainDoubles?, isEmpty_rename]
    | _ => rfl
  | _ => simp [Value.plainDoubles?]

end Renaming

/-! ## Analyses -/

/-- Begun with the same guard the two analyses find both sides unfit, or go on with related things
    and the same guard. -/
def Twins.Analyzes (w : Twins) (x y : AnalysisM α) (P : Bridge → α → α → Prop) : Prop :=
  ∀ guard, w.Runs (x guard : SessionM (Option (α × List GuardedName))) (y guard)
    fun b => Option.Rel fun found found' => P b found.1 found'.1 ∧ found'.2 = found.2

namespace Twins.Analyzes

variable {w : Twins} {P : Bridge → α → α → Prop} {Q : Bridge → β → β → Prop}

theorem pure {a a' : α} (h : P w.bridge a a') : w.Analyzes (pure a) (pure a') P :=
  fun _ => .pure (.some ⟨h, rfl⟩)

theorem unfit : w.Analyzes (failure : AnalysisM α) failure P := fun _ => .pure .none

theorem unfit_bind {f g : γ → AnalysisM α} :
    w.Analyzes (failure >>= f) (failure >>= g) P := fun _ => .pure .none

theorem bind {x y : AnalysisM α} {f g : α → AnalysisM β} (hx : w.Analyzes x y P)
    (hf : ∀ a a' z, w ≤ z → P z.bridge a a' → z.Analyzes (f a) (g a') Q) :
    w.Analyzes (x >>= f) (y >>= g) Q := by
  intro guard
  refine (hx guard).bind fun found found' z hz hfound => ?_
  cases hfound with
  | none => exact .pure .none
  | @some result result' h =>
    obtain ⟨a, guard⟩ := result
    obtain ⟨a', guard'⟩ := result'
    obtain ⟨ha, rfl⟩ := h
    exact hf a a' z hz ha guard'

theorem ite {p q : Prop} [Decidable p] [Decidable q] {x y x' y' : AnalysisM α} (hpq : q ↔ p)
    (hx : w.Analyzes x y P) (hx' : w.Analyzes x' y' P) :
    w.Analyzes (if p then x else x') (if q then y else y') P :=
  rel_ite (R := fun x y => w.Analyzes x y P) hpq (fun _ => hx) fun _ => hx'

theorem option {found found' : Option α} (h : Option.Rel (P w.bridge) found found') :
    w.Analyzes (StateT.lift (OptionT.mk (Pure.pure found)))
      (StateT.lift (OptionT.mk (Pure.pure found'))) P := by
  intro guard
  cases h with
  | none => exact .pure .none
  | some h => exact .pure (.some ⟨h, rfl⟩)

theorem lift {x y : SessionM α} (h : w.Runs x y P) : w.Analyzes (x : AnalysisM α) y P := by
  intro guard
  refine Runs.bind (R := fun b => Option.Rel (P b)) ?_ fun found found' z hz hfound => ?_
  · exact h.bind fun a a' z hz ha => .pure (.some ha)
  · cases hfound with
    | none => exact .pure .none
    | some ha => exact .pure (.some ⟨ha, rfl⟩)

end Twins.Analyzes

/-! ## Fused runs -/

/-- Both give up for the same reason, or both have values of this kind. -/
inductive Settles (P : α → α → Prop) : Except Bailout α → Except Bailout α → Prop where
  | value {a a' : α} (h : P a a') : Settles P (.ok a) (.ok a')
  | bailout (bailout : Bailout) : Settles P (.error bailout) (.error bailout)

/-- The fused runs keep in step, and give up on both sides or on neither. -/
def Twins.Fuses (w : Twins) (x y : FusedM α) (P : Bridge → α → α → Prop) : Prop :=
  w.Runs x.run y.run fun b => Settles (P b)

namespace Twins.Fuses

variable {w : Twins} {P : Bridge → α → α → Prop} {Q : Bridge → β → β → Prop}

theorem pure {a a' : α} (h : P w.bridge a a') : w.Fuses (pure a) (pure a') P :=
  Runs.pure (.value h)

theorem giveUp (bailout : Bailout) : w.Fuses (throw bailout : FusedM α) (throw bailout) P :=
  Runs.pure (.bailout bailout)

theorem bind {x y : FusedM α} {f g : α → FusedM β} (hx : w.Fuses x y P)
    (hf : ∀ a a' z, w ≤ z → P z.bridge a a' → z.Fuses (f a) (g a') Q) :
    w.Fuses (x >>= f) (y >>= g) Q := by
  refine Runs.bind hx fun outcome outcome' z hz houtcome => ?_
  cases houtcome with
  | value h => exact hf _ _ z hz h
  | bailout bailout => exact Runs.pure (.bailout bailout)

theorem ite {p q : Prop} [Decidable p] [Decidable q] {x y x' y' : FusedM α} (hpq : q ↔ p)
    (hx : w.Fuses x y P) (hx' : w.Fuses x' y' P) :
    w.Fuses (if p then x else x') (if q then y else y') P :=
  rel_ite (R := fun x y => w.Fuses x y P) hpq (fun _ => hx) fun _ => hx'

theorem lift {x y : SessionM α} (h : w.Runs x y P) : w.Fuses (x : FusedM α) y P :=
  Runs.bind h fun _ _ _ _ ha => .pure (.value ha)

theorem get_bind {f g : Session → FusedM β} (h : w.Fuses (f w.left) (g w.right) Q) :
    w.Fuses ((MonadState.get : SessionM Session) >>= f) ((MonadState.get : SessionM Session) >>= g)
      Q := h

theorem ofBailout {e e' : Except Bailout α} (h : e' = e) :
    w.Fuses (FusedM.ofBailout e) (FusedM.ofBailout e') fun _ => Eq := by
  rw [h]
  cases e with
  | error bailout => exact giveUp bailout
  | ok a => exact pure rfl

theorem forM {f g : α → FusedM PUnit} {items : List α}
    (h : ∀ a z, w ≤ z → z.Fuses (f a) (g a) fun _ _ _ => True) :
    w.Fuses (items.forM f) (items.forM g) fun _ _ _ => True := by
  induction items generalizing w with
  | nil => exact pure trivial
  | cons a rest ih =>
    exact (h a w le_rfl).bind fun _ _ z hz _ => ih fun b y hy => h b y (hz.trans hy)

/-- What is found of the items is the same on both sides, seen through `view`. -/
theorem mapM {δ : Type} {view : β → δ} {f g : α → FusedM β} {items : List α}
    (h : ∀ a z, w ≤ z → z.Fuses (f a) (g a) fun _ b b' => view b' = view b) :
    w.Fuses (items.mapM f) (items.mapM g) fun _ l l' => l'.map view = l.map view := by
  induction items generalizing w with
  | nil => exact pure rfl
  | cons a rest ih =>
    rw [List.mapM_cons, List.mapM_cons]
    refine (h a w le_rfl).bind fun b b' z hz hb => ?_
    refine (ih fun c y hy => h c y (hz.trans hy)).bind fun bs bs' y hy hbs => ?_
    exact pure (by rw [List.map_cons, List.map_cons, hb, hbs])

end Twins.Fuses

namespace Bridge.Relates

variable {b : Bridge} {v v' : Value} {args args' : ArgList}

theorem isPlain {arg arg' : Arg Value} (h : b.Relates arg arg') : arg'.isPlain = arg.isPlain := by
  unfold Arg.isPlain
  rw [h.tag, h.value.same fun _ _ => Renaming.isMissingArg_rename,
    h.value.same fun _ _ => Renaming.isEllipsis_rename]

theorem all_isPlain (h : b.Relates args args') :
    args'.all Arg.isPlain = args.all Arg.isPlain := by
  have hlist := relates_iff_forall₂.1 h
  clear h
  induction hlist with
  | nil => rfl
  | cons harg _ ih => rw [List.all_cons, List.all_cons, harg.isPlain, ih]

theorem plainValues? (h : b.Relates args args') :
    Option.Rel (List.Forall₂ b.Relates) (CallByNeed.plainValues? args)
      (CallByNeed.plainValues? args') := by
  unfold CallByNeed.plainValues?
  rw [h.all_isPlain]
  split
  · refine .some (relates_iff_forall₂.1 (h.map (f := List.map (·.value)) fun r args => ?_))
    simp [Renaming.rename_list]
  · exact .none

theorem namedCall? (h : b.Relates v v') :
    Option.Rel (fun found found' => found'.1 = found.1 ∧ b.Relates found.2 found'.2)
      v.namedCall? v'.namedCall? := by
  cases h.alike with
  | @call c c' hcall =>
    obtain ⟨_, function, args⟩ := c
    obtain ⟨_, function', args'⟩ := c'
    have hfunction : b.Relates function function' := hcall.function
    have hargs : b.Relates args args' := hcall.args
    cases hfunction.alike with
    | symbol name => exact .some ⟨rfl, hargs⟩
    | _ => exact .none
  | _ => exact .none

end Bridge.Relates

/-- What counts as numbers does so on both sides. -/
theorem Bridge.Stores.unclassedDoubles? {b : Bridge} {v v' : Value} (h : b.Stores v v') :
    Option.Rel (fun found found' => found'.values = found.values ∧
      b.Clean found.attributes found'.attributes) v.unclassedDoubles? v'.unclassedDoubles? := by
  obtain ⟨hrelates, hstorable⟩ := h
  cases hrelates.alike with
  | @vector x x' hx =>
    have hclean := Bridge.Stores.clean ⟨hrelates, hstorable⟩ nofun nofun
    obtain ⟨_, hsame, hx⟩ := relates_vector.1 hclean
    cases hsame
    obtain ⟨_, elements, attributes⟩ := x
    obtain ⟨_, elements', attributes'⟩ := x'
    obtain rfl : elements' = elements := hx.elements
    have hattributes : b.Clean attributes attributes' := hx.attributes
    have hclass := hattributes.same (f := (AttributeList.contains · .classAttribute))
      fun _ _ => Renaming.contains_rename _
    cases elements' with
    | double xs =>
      simp only [Value.unclassedDoubles?, hclass]
      split
      · exact .none
      · exact .some ⟨rfl, hattributes⟩
    | _ => exact .none
  | _ => exact .none

/-! ## Lanes -/

section

variable {given given' : List (Symbol × DoubleVector)}

/-- Only the numbers, the extents and the number of the attributes count. -/
theorem ofVector_eq {b : Bridge} {v v' : DoubleVector} (hvalues : v'.values = v.values)
    (hattributes : b.Relates v.attributes v'.attributes) : Lane.ofVector v' = .ofVector v := by
  have hextents := hattributes.same (f := AttributeList.extents?) fun _ _ =>
    Renaming.extents?_rename
  have hlength := hattributes.same (f := fun attributes => attributes.entries.length)
    fun _ _ => Renaming.length_rename _
  simp only [Lane.ofVector, hvalues, hextents, hlength]

/-- A variable with what a loop reads of it. -/
def laneOf (entry : Symbol × DoubleVector) : Symbol × Lane := (entry.1, .ofVector entry.2)

theorem lookup_laneOf (h : given'.map laneOf = given.map laneOf) (name : Symbol) :
    (given'.lookup name).map Lane.ofVector = (given.lookup name).map Lane.ofVector := by
  have hlookup (l : List (Symbol × DoubleVector)) :
      (l.lookup name).map Lane.ofVector = (l.map laneOf).lookup name := by
    induction l with
    | nil => rfl
    | cons entry rest ih =>
      rw [List.map_cons, laneOf, List.lookup_cons, List.lookup_cons]
      split
      · rfl
      · exact ih
  rw [hlookup, hlookup, h]

variable {index : Array Float} {kernels : KernelTable}

mutual

theorem LoopExpr.evaluate_given (h : given'.map laneOf = given.map laneOf) (e : LoopExpr) :
    e.evaluate index given' kernels = e.evaluate index given kernels := by
  match e with
  | .index => rfl
  | .constant _ => rfl
  | .invariant name =>
    have hlookup := lookup_laneOf h name
    unfold evaluate
    generalize given'.lookup name = found' at hlookup ⊢
    generalize given.lookup name = found at hlookup ⊢
    cases found <;> cases found' <;> simp_all
  | .map op operands =>
    unfold evaluate
    rw [LoopExpr.evaluateAll_given h operands]
  | .computation name operand =>
    unfold evaluate
    rw [LoopExpr.evaluate_given h operand]

theorem LoopExpr.evaluateAll_given (h : given'.map laneOf = given.map laneOf)
    (es : List LoopExpr) :
    evaluateAll index given' kernels es = evaluateAll index given kernels es := by
  match es with
  | [] => rfl
  | e :: rest =>
    unfold evaluateAll
    rw [LoopExpr.evaluate_given h e, LoopExpr.evaluateAll_given h rest]

end

end

namespace Evaluator

open Twins

variable {ev : Evaluator}

section

variable (hev : ev.KeepsTwins) {w : Twins} {env env' : EnvId} (henv : w.bridge.Relates env env')
include hev henv

theorem analyzes_loopOp (name : Symbol) :
    w.Analyzes (ev.loopOp env name) (ev.loopOp env' name) fun _ => Eq := by
  refine Analyzes.bind (.lift (runs_function? hev henv name).attempt)
    fun found found' z hz hfound => ?_
  cases hfound with
  | none => exact .unfit
  | @some function function' hfunction =>
    cases hfunction with
    | none => exact .unfit
    | @some value value' hvalue =>
      cases hvalue.alike with
      | builtin _ =>
        dsimp only
        split
        · exact .bind (P := fun _ _ _ => True) (fun guard => .pure (.some ⟨trivial, rfl⟩))
            fun _ _ _ _ _ => .pure rfl
        · exact .unfit
      | _ => exact .unfit

end

mutual

theorem analyzes_loopExprOf (hev : ev.KeepsTwins) {w : Twins} {env env' : EnvId}
    (henv : w.bridge.Relates env env') (var accumulator : Symbol) (expr : Value) {expr' : Value}
    (hexpr : w.bridge.Clean expr expr') :
    w.Analyzes (ev.loopExprOf env var accumulator expr)
      (ev.loopExprOf env' var accumulator expr') fun _ => Eq := by
  match expr with
  | .symbol name =>
    rw [relates_symbol.1 hexpr]
    exact .ite Iff.rfl (.pure rfl) (.ite Iff.rfl .unfit (.pure rfl))
  | .vector ⟨identity, elements, attributes⟩ =>
    obtain ⟨x', rfl, hx⟩ := relates_vector.1 hexpr
    obtain rfl := hx.image
    have hempty : (rename w.bridge.bare.across attributes).isEmpty = attributes.isEmpty :=
      Renaming.isEmpty_rename
    rw [Renaming.rename_vec]
    cases elements with
    | double xs =>
      unfold loopExprOf
      split
      · exact .ite (by rw [hempty]) (.pure rfl) .unfit
      · exact .unfit
    | _ => exact .unfit
  | .call ⟨identity, function, args⟩ =>
    obtain ⟨⟨identity', function', args'⟩, rfl, hcall⟩ := relates_call.1 hexpr
    have hfunction : w.bridge.Clean function function' := hcall.function
    have hargs : w.bridge.Clean args args' := hcall.args
    cases function with
    | symbol name =>
      rw [relates_symbol.1 hfunction]
      refine .ite (by rw [hargs.all_isPlain]) ?_ .unfit
      refine (analyzes_loopOp hev henv name).bind fun op op' z hz hop => ?_
      subst hop
      refine (analyzes_loopExprsOf hev (hz.relates henv) var accumulator args
        (hz.clean hargs)).bind fun operands operands' y hy hoperands => ?_
      subst hoperands
      refine .option ?_
      cases op.expr? operands with
      | none => exact .none
      | some _ => exact .some rfl
    | _ => cases hfunction.alike; exact .unfit
  | .null | .list _ | .dots _ | .closure _ | .builtin _ _ | .promise _ | .environment _ =>
    cases hexpr.alike
    exact .unfit

theorem analyzes_loopExprsOf (hev : ev.KeepsTwins) {w : Twins} {env env' : EnvId}
    (henv : w.bridge.Relates env env') (var accumulator : Symbol) (args : List (Arg Value))
    {args' : List (Arg Value)} (hargs : w.bridge.Clean args args') :
    w.Analyzes (ev.loopExprsOf env var accumulator args)
      (ev.loopExprsOf env' var accumulator args') fun _ => Eq := by
  match args with
  | [] =>
    rw [hargs.of_nil]
    exact .pure rfl
  | ⟨tag, value⟩ :: rest =>
    obtain ⟨⟨tag', value'⟩, rest', rfl, harg, hrest⟩ := hargs.of_cons
    refine (analyzes_loopExprOf hev henv var accumulator value harg.value).bind
      fun operand operand' z hz hoperand => ?_
    subst hoperand
    refine (analyzes_loopExprsOf hev (hz.relates henv) var accumulator rest
      (hz.clean hrest)).bind fun operands operands' y hy hoperands => ?_
    subst hoperands
    exact .pure rfl

end

section

variable (hev : ev.KeepsTwins) {w : Twins} {env env' : EnvId} (henv : w.bridge.Relates env env')
  {body body' : Value}
include hev henv

theorem analyzes_statementOf (hbody : w.bridge.Clean body body') :
    w.Analyzes (ev.statementOf env body) (ev.statementOf env' body') Bridge.Clean := by
  have hcall := hbody.namedCall?
  -- the right side is opened only in the case that the left one is in
  generalize hright : ev.statementOf env' body' = right
  unfold statementOf at hright ⊢
  generalize body.namedCall? = found at hcall ⊢
  generalize body'.namedCall? = found' at hcall hright
  cases hcall with
  | none => exact hright ▸ .pure hbody
  | @some found found' hfound =>
    obtain ⟨name, args⟩ := found
    obtain ⟨name', args'⟩ := found'
    obtain ⟨rfl, hargs⟩ := hfound
    have hplain := hargs.plainValues?
    split
    · rename_i heq
      cases heq
      split at hright
      · rename_i heq
        cases heq
        generalize plainValues? args = values at hplain ⊢
        generalize plainValues? args' = values' at hplain hright
        subst hright
        cases hplain with
        | none => exact .unfit
        | some hvalues =>
          rcases hvalues with _ | ⟨hstatement, _ | ⟨_, _⟩⟩
          · exact .unfit
          · refine (analyzes_loopOp hev henv _).bind fun op op' z hz hop => ?_
            subst hop
            exact .ite Iff.rfl (.pure (hz.clean hstatement)) .unfit
          · exact .unfit
      · rename_i hother
        exact (hother _ rfl).elim
    · rename_i hother
      split at hright
      · rename_i heq
        cases heq
        exact (hother _ rfl).elim
      · exact hright ▸ .pure hbody

omit hev henv in
/-- On both sides there is a call of the same function, or there is none. -/
theorem analyzes_named {P : Bridge → α → α → Prop} {v v' : Value} (hv : w.bridge.Clean v v')
    {f g : Symbol → ArgList → AnalysisM α}
    (h : ∀ name args args', w.bridge.Clean args args' →
      w.Analyzes (f name args) (g name args') P) :
    w.Analyzes (match v.namedCall? with | some (name, args) => f name args | _ => failure)
      (match v'.namedCall? with | some (name, args) => g name args | _ => failure) P := by
  have hcall := hv.namedCall?
  generalize v.namedCall? = found at hcall ⊢
  generalize v'.namedCall? = found' at hcall ⊢
  cases hcall with
  | none => exact .unfit
  | @some found found' hfound =>
    obtain ⟨name, args⟩ := found
    obtain ⟨name', args'⟩ := found'
    obtain ⟨rfl, hargs⟩ := hfound
    exact h _ args args' hargs

theorem analyzes_accumulationOf (var : Symbol) {statement statement' : Value}
    (hstatement : w.bridge.Clean statement statement') :
    w.Analyzes (ev.accumulationOf env var statement) (ev.accumulationOf env' var statement')
      fun b found found' => found'.1 = found.1 ∧ b.Clean found.2 found'.2 := by
  refine analyzes_named hstatement fun assign args args' hargs => ?_
  have hplain := hargs.plainValues?
  generalize plainValues? args = values at hplain ⊢
  generalize plainValues? args' = values' at hplain ⊢
  rcases hplain with ⟨_ | ⟨htarget, _ | ⟨hvalue, _ | ⟨_, _⟩⟩⟩⟩ | _
  · exact .unfit
  · exact .unfit
  · refine (analyzes_loopOp hev henv assign).bind fun op op' z hz hop => ?_
    subst hop
    refine .ite Iff.rfl ?_ .unfit_bind
    cases htarget.alike with
    | symbol accumulator =>
      refine .ite Iff.rfl .unfit_bind ?_
      refine analyzes_named (hz.clean hvalue) fun plus operands operands' hoperands => ?_
      have hplain := hoperands.plainValues?
      generalize plainValues? operands = values at hplain ⊢
      generalize plainValues? operands' = values' at hplain ⊢
      rcases hplain with ⟨_ | ⟨hleft, _ | ⟨hincrement, _ | ⟨_, _⟩⟩⟩⟩ | _
      · exact .unfit
      · cases hleft.alike <;> exact .unfit
      · cases hleft.alike with
        | symbol left =>
          refine .ite Iff.rfl ?_ .unfit_bind
          refine (analyzes_loopOp hev (hz.relates henv) plus).bind fun op op' y hy hop => ?_
          subst hop
          exact .ite Iff.rfl (.pure ⟨rfl, hy.clean hincrement⟩) .unfit_bind
        | _ => exact .unfit
      · cases hleft.alike <;> exact .unfit
      · exact .unfit
    | _ => exact .unfit
  · exact .unfit
  · exact .unfit

theorem analyzes_accumulationBody (var : Symbol) (hbody : w.bridge.Clean body body') :
    w.Analyzes (ev.accumulationBody env var body) (ev.accumulationBody env' var body')
      fun _ => Eq := by
  refine (analyzes_statementOf hev henv hbody).bind fun statement statement' z hz hstatement => ?_
  refine (analyzes_accumulationOf hev (hz.relates henv) var hstatement).bind
    fun found found' y hy hfound => ?_
  obtain ⟨accumulator, increment⟩ := found
  obtain ⟨accumulator', increment'⟩ := found'
  obtain ⟨rfl, hincrement⟩ := hfound
  refine (analyzes_loopExprOf hev ((hz.trans hy).relates henv) var _ increment hincrement).bind
    fun expr expr' x hx hexpr => ?_
  subst hexpr
  exact .pure rfl

theorem runs_analyze (var : Symbol) (hbody : w.bridge.Clean body body') :
    w.Runs (ev.analyze env var body) (ev.analyze env' var body') fun _ => Eq := by
  refine (analyzes_accumulationBody hev henv var hbody []).bind fun found found' z hz hfound => ?_
  cases hfound with
  | none => exact .pure rfl
  | @some found found' h =>
    obtain ⟨⟨accumulator, increment⟩, guard⟩ := found
    obtain ⟨⟨accumulator', increment'⟩, guard'⟩ := found'
    obtain ⟨hsame, rfl⟩ := h
    cases hsame
    exact .get_bind (.ite (by rw [z.matched.rest.kernels]) (fun _ => .pure rfl) fun _ => .pure rfl)

/-! ## Running on whole vectors -/

omit hev in
theorem fuses_requireForced (name : Symbol) :
    w.Fuses (FusedM.requireForced env name) (FusedM.requireForced env' name)
      fun _ _ _ => True := by
  obtain ⟨found, found', hfound, hfound', hrel⟩ := w.find henv name
  refine .get_bind ?_
  rw [hfound, hfound']
  cases hrel with
  | none => exact .pure trivial
  | @some owner owner' h =>
    obtain ⟨id, value⟩ := owner
    obtain ⟨id', value'⟩ := owner'
    have hvalue : w.bridge.Relates value value' := h.2.relates
    cases hvalue.alike with
    | @promise p hp =>
      obtain ⟨cell, cell', hcell, hcell', hclean⟩ := w.matched.promises hp
      refine Fuses.ite ?_ (.giveUp _) (.pure trivial)
      simp only [PromiseStore.isWaiting, hcell, hcell', Option.any_some,
        hclean.same fun _ _ => Renaming.isKept_rename _]
    | _ => exact .pure trivial

theorem fuses_checkGuard (guarded : GuardedName) :
    w.Fuses (ev.checkGuard env guarded) (ev.checkGuard env' guarded) fun _ _ _ => True := by
  refine (Fuses.lift (runs_function? hev henv guarded.name).attempt).bind
    fun found found' z hz hfound => ?_
  cases hfound with
  | none => exact .giveUp _
  | @some function function' hfunction =>
    cases hfunction with
    | none => exact .giveUp _
    | @some value value' hvalue =>
      cases hvalue.alike with
      | builtin _ => exact Fuses.ite Iff.rfl (.pure trivial) (.giveUp _)
      | _ => exact .giveUp _

theorem fuses_readAccumulator (name : Symbol) :
    w.Fuses (ev.readAccumulator env name) (ev.readAccumulator env' name)
      fun b read read' => read'.1 = read.1 ∧ b.Clean read.2 read'.2 := by
  refine (Fuses.lift (runs_lookup hev henv name).attempt).bind fun found found' z hz hfound => ?_
  cases hfound with
  | none => exact .giveUp _
  | @some value value' hvalue =>
    have hdoubles := hvalue.unclassedDoubles?
    dsimp only
    generalize value.unclassedDoubles? = found at hdoubles ⊢
    generalize value'.unclassedDoubles? = found' at hdoubles ⊢
    cases hdoubles with
    | none => exact .giveUp _
    | some h =>
      dsimp only
      rw [h.1]
      split
      · exact .pure ⟨rfl, h.2⟩
      · exact .giveUp _

theorem fuses_readInvariant (name : Symbol) :
    w.Fuses (ev.readInvariant env name) (ev.readInvariant env' name)
      fun _ read read' => laneOf read' = laneOf read := by
  refine (Fuses.lift (runs_lookup hev henv name).attempt).bind fun found found' z hz hfound => ?_
  cases hfound with
  | none => exact .giveUp _
  | @some value value' hvalue =>
    have hdoubles := hvalue.unclassedDoubles?
    dsimp only
    generalize value.unclassedDoubles? = found at hdoubles ⊢
    generalize value'.unclassedDoubles? = found' at hdoubles ⊢
    cases hdoubles with
    | none => exact .giveUp _
    | some h => exact .pure (congrArg (Prod.mk name) (ofVector_eq h.1 h.2))

omit hev in
theorem fuses_bindResult (name : Symbol) (elements : Elements) {attributes attributes' : Attributes}
    (h : w.bridge.Clean attributes attributes') :
    w.Fuses (FusedM.bindResult env name elements attributes)
      (FusedM.bindResult env' name elements attributes') fun _ _ _ => True := by
  refine (Fuses.lift (runs_newVector elements h)).bind fun value value' z hz hvalue => ?_
  refine (Fuses.lift (runs_bindIn (hz.relates henv) name hvalue.stores).attempt).bind
    fun found found' y hy hfound => ?_
  cases hfound with
  | none => exact .giveUp _
  | some _ => exact .pure trivial

theorem fuses_fusedRun (loop : Accumulation) (var : Symbol) {sequence sequence' : Value}
    (hsequence : w.bridge.Clean sequence sequence') :
    w.Fuses (ev.fusedRun loop env var sequence) (ev.fusedRun loop env' var sequence')
      fun _ _ _ => True := by
  have hindex := hsequence.same (f := Value.plainDoubles?) fun _ _ =>
    Renaming.plainDoubles?_rename
  refine (Fuses.forM fun name z hz => fuses_requireForced (hz.relates henv) name).bind
    fun _ _ z hz _ => ?_
  refine (Fuses.forM fun guarded y hy =>
    fuses_checkGuard hev ((hz.trans hy).relates henv) guarded).bind fun _ _ y hy _ => ?_
  have henv := (hz.trans hy).relates henv
  rw [hindex]
  split
  · split
    · refine (fuses_readAccumulator hev henv _).bind fun read read' x hx hread => ?_
      obtain ⟨start, attributes⟩ := read
      obtain ⟨start', attributes'⟩ := read'
      obtain ⟨rfl, hattributes⟩ := hread
      have henv := hx.relates henv
      refine (Fuses.mapM fun name u hu => fuses_readInvariant hev (hu.relates henv) name).bind
        fun given given' u hu hgiven => ?_
      refine .get_bind ?_
      -- both sessions have the same kernels, so equal lanes are computed from equal numbers
      have hkernels := u.matched.rest.kernels
      refine (Fuses.ofBailout ?_).bind fun lane lane' u₁ hu₁ hlane => ?_
      · rw [hkernels, LoopExpr.evaluate_given hgiven]
      subst hlane
      refine (Fuses.ofBailout rfl).bind fun increments increments' u₂ hu₂ hincrements => ?_
      subst hincrements
      refine (Fuses.ofBailout ?_).bind fun total total' u₃ hu₃ htotal => ?_
      · rw [hkernels]
      subst htotal
      have hon := ((hu.trans hu₁).trans hu₂).trans hu₃
      refine (fuses_bindResult (hon.relates henv) _ _ (hon.clean hattributes)).bind
        fun _ _ t ht _ => ?_
      exact fuses_bindResult ((hon.trans ht).relates henv) _ _ relates_emptyAttributes
    · exact .giveUp _
  · exact .giveUp _

/-! ## Running one iteration at a time -/

theorem runs_iterate (var : Symbol) (hbody : w.bridge.Clean body body')
    (elements : List Elements) :
    w.Runs (ev.iterate env var body elements) (ev.iterate env' var body' elements)
      fun _ _ _ => True := by
  induction elements generalizing w with
  | nil => exact .pure trivial
  | cons element rest ih =>
    refine (runs_newBare element).bind fun value value' z hz hvalue => ?_
    refine (runs_bindIn (hz.relates henv) var hvalue.stores).bind fun _ _ y hy _ => ?_
    have hwy := hz.trans hy
    refine (runs_evaluate hev (hwy.relates henv) (hwy.clean hbody)).bind fun _ _ x hx _ => ?_
    have hwx := hwy.trans hx
    exact ih (hwx.relates henv) (hwx.clean hbody)

theorem runs_genericRun (var : Symbol) {sequence sequence' : Value}
    (hsequence : w.bridge.Clean sequence sequence') (hbody : w.bridge.Clean body body') :
    w.Runs (ev.genericRun env var sequence body) (ev.genericRun env' var sequence' body')
      fun _ _ _ => True := by
  have hlength := hsequence.same (f := Value.length) fun _ _ => Renaming.length_value_rename
  have htype := hsequence.same (f := Value.typeName) fun _ _ => Renaming.typeName_rename
  cases hsequence.alike with
  | @vector x x' hx =>
    have helements : x'.elements = x.elements := hx.elements
    unfold genericRun
    dsimp only
    rw [helements]
    exact runs_iterate hev henv var hbody _
  | _ =>
    unfold genericRun
    dsimp only
    rw [hlength, htype]
    exact .ite Iff.rfl (fun _ => .pure trivial) fun _ => .fail _

/-! ## Loop instances -/

omit hev henv in
theorem runs_count (change : LoopStats → LoopStats) :
    w.Runs (SessionM.count change) (SessionM.count change) fun _ _ _ => True := by
  have hmatches : w.bridge.Matches { w.left with stats := change w.left.stats }
      { w.right with stats := change w.right.stats } :=
    { w.matched with rest := { w.matched.rest with stats := congrArg change w.matched.rest.stats } }
  exact .modifyGet (z := ⟨w.bridge, _, _, hmatches⟩) ⟨le_rfl, .of_eq rfl, .of_eq rfl⟩ rfl rfl
    trivial

omit hev henv in
theorem runs_changeLoops {f g : LoopTable → LoopTable}
    (h : ∀ {table table'}, w.bridge.Clean table table' → w.bridge.Clean (f table) (g table')) :
    w.Runs (modify fun s => { s with loops := f s.loops })
      (modify fun s => { s with loops := g s.loops }) fun _ _ _ => True := by
  have hmatches : w.bridge.Matches { w.left with loops := f w.left.loops }
      { w.right with loops := g w.right.loops } :=
    { w.matched with rest := { w.matched.rest with loops := h w.matched.rest.loops } }
  exact .modifyGet (z := ⟨w.bridge, _, _, hmatches⟩) ⟨le_rfl, .of_eq rfl, .of_eq rfl⟩ rfl rfl
    trivial

variable {call call' : Call}

omit hev henv in
theorem runs_setLoopStatus (hcall : w.bridge.Clean call call') (status : LoopStatus) :
    w.Runs (SessionM.setLoopStatus call status) (SessionM.setLoopStatus call' status)
      fun _ _ _ => True :=
  runs_changeLoops fun htable =>
    htable.map₂ (f := fun table call => LoopTable.set table call status)
      (fun _ table _ => Renaming.set_rename table status) hcall

omit hev henv in
/-- The same is known on both sides about the instance of a call. -/
theorem status?_eq (hcall : w.bridge.Clean call call') :
    w.right.loops.status? call' = w.left.loops.status? call := by
  rw [hcall.image, w.matched.rest.loops.image]
  exact Renaming.status?_rename _

theorem runs_ensureAnalyzed (hcall : w.bridge.Clean call call') (var : Symbol)
    (hbody : w.bridge.Clean body body') :
    w.Runs (ev.ensureAnalyzed call env var body) (ev.ensureAnalyzed call' env' var body')
      fun _ _ _ => True := by
  refine .get_bind (.ite ?_ (fun _ => .pure trivial) fun _ => ?_)
  · rw [LoopTable.contains, LoopTable.contains, status?_eq hcall]
  · refine (runs_count _).bind fun _ _ z hz _ => ?_
    refine (runs_analyze hev (hz.relates henv) var (hz.clean hbody)).bind
      fun found found' y hy hfound => ?_
    subst hfound
    refine runs_changeLoops (f := fun table => table.insert call _)
      (g := fun table => table.insert call' _) fun htable => ?_
    exact htable.map₂ (f := fun table call => LoopTable.insert table call _)
      (fun _ table _ => Renaming.insert_rename table _) ((hz.trans hy).clean hcall)

theorem runs_tryFused (hcall : w.bridge.Clean call call') (var : Symbol)
    {sequence sequence' : Value} (hsequence : w.bridge.Clean sequence sequence') :
    w.Runs (ev.tryFused call env var sequence) (ev.tryFused call' env' var sequence')
      fun _ => Eq := by
  refine .get_bind ?_
  rw [status?_eq hcall]
  split
  · exact .pure rfl
  · rename_i loop _
    refine .ite (by rw [hsequence.same (f := Value.length) fun _ _ => Renaming.length_value_rename])
      (fun _ => .pure rfl) fun _ => ?_
    refine Runs.bind (fuses_fusedRun hev henv loop var hsequence)
      fun outcome outcome' z hz houtcome => ?_
    have hcall := hz.clean hcall
    cases houtcome with
    | value _ =>
      exact (runs_setLoopStatus hcall _).bind fun _ _ _ _ _ =>
        (runs_count _).bind fun _ _ _ _ _ => .pure rfl
    | bailout _ =>
      exact (runs_setLoopStatus hcall _).bind fun _ _ _ _ _ =>
        (runs_count _).bind fun _ _ _ _ _ => .pure rfl

theorem runs_runLoop (hcall : w.bridge.Clean call call') (var : Symbol)
    {sequence sequence' : Value} (hsequence : w.bridge.Clean sequence sequence')
    (hbody : w.bridge.Clean body body') :
    w.Runs (ev.runLoop call env var sequence body) (ev.runLoop call' env' var sequence' body')
      Bridge.Clean := by
  refine .get_bind (.ite (by rw [w.matched.rest.compileLoops]) (fun _ => ?_) fun _ => ?_)
  · refine (runs_ensureAnalyzed hev henv hcall var hbody).bind fun _ _ z hz _ => ?_
    refine (runs_tryFused hev (hz.relates henv) (hz.clean hcall) var (hz.clean hsequence)).bind
      fun fused fused' y hy hfused => ?_
    subst hfused
    have hwy := hz.trans hy
    refine .ite Iff.rfl (fun _ => .pure (relates_null.2 rfl)) fun _ => ?_
    refine (runs_count _).bind fun _ _ x hx _ => ?_
    have hwx := hwy.trans hx
    exact (runs_genericRun hev (hwx.relates henv) var (hwx.clean hsequence)
      (hwx.clean hbody)).bind fun _ _ _ _ _ => .pure (relates_null.2 rfl)
  · exact (runs_genericRun hev henv var hsequence hbody).bind
      fun _ _ _ _ _ => .pure (relates_null.2 rfl)

end

/-! ## Evaluators -/

theorem KeepsTwins.step (hev : ev.KeepsTwins) : KeepsTwins ev.step := by
  intro w task task' htask
  cases htask with
  | evaluate hexpr henv => exact runs_evaluateExpr hev henv hexpr
  | apply hfunction hcall hargs henv hextra =>
    exact runs_applyValue hev henv hfunction hcall hargs hextra
  | loop var hcall henv hsequence hbody => exact runs_runLoop hev henv hcall var hsequence hbody

end Evaluator

/-- The evaluator of any fuel keeps all twins in step. -/
theorem keepsTwins_evaluator (fuel : Nat) : (evaluator fuel).KeepsTwins := by
  induction fuel with
  | zero => exact fun _ _ _ _ => .exhausted
  | succ fuel ih => exact ih.step

end CallByNeed
