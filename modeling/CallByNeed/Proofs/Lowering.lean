import CallByNeed.Proofs.Resolution

/-!
# What an analysis makes of a loop body

`Lowers` says which loop expression an increment is read as, for any reading of
its function names as loop operations, and `LowersBody` which accumulation a
loop body is read as.

An analysis looks names up, and each of them is a name that the body calls.
`Reads` says what that comes to: the guard only names such functions, the
analysis leaves the session as it is if they resolve without evaluation, and if
it forced no promise, what it found is what the body is read as under the guard
that it recorded (`reads_accumulationBody`).
-/

namespace CallByNeed

/-! ## Names in function position -/

namespace Value

mutual

/-- The names in function position, in an expression and in the expressions inside it. -/
def calledNames : Value → List Symbol
  | call ⟨_, symbol name, args⟩ => name :: argsCalledNames args
  | call ⟨_, function, args⟩ => function.calledNames ++ argsCalledNames args
  | _ => []

def argsCalledNames : List (Arg Value) → List Symbol
  | [] => []
  | ⟨_, value⟩ :: rest => value.calledNames ++ argsCalledNames rest

end

theorem calledNames_call {id : Identity} {name : Symbol} {args : ArgList} :
    (call ⟨id, symbol name, args⟩).calledNames = name :: argsCalledNames args := by
  simp only [calledNames]

theorem argsCalledNames_eq (args : ArgList) :
    argsCalledNames args = (args.map (·.value)).flatMap calledNames := by
  induction args with
  | nil => rfl
  | cons first rest ih =>
    simp only [argsCalledNames, ih, List.map_cons, List.flatMap_cons]

end Value

theorem Arg.isPlain_iff {arg : Arg Value} : arg.isPlain = true ↔
    arg.tag = none ∧ arg.value.isMissingArg = false ∧ arg.value.isEllipsis = false := by
  simp [Arg.isPlain, and_assoc]

theorem Arg.isPlain_untagged {value : Value} (hmissing : value.isMissingArg = false)
    (hellipsis : value.isEllipsis = false) : (Arg.untagged value).isPlain = true :=
  isPlain_iff.2 ⟨rfl, hmissing, hellipsis⟩

theorem eq_of_plainValues? {args : ArgList} {values : List Value}
    (h : plainValues? args = some values) :
    args = values.map Arg.untagged ∧
      ∀ value ∈ values, value.isMissingArg = false ∧ value.isEllipsis = false := by
  unfold plainValues? at h
  split at h
  · rename_i hplain
    cases h
    rw [List.all_eq_true] at hplain
    refine ⟨?_, fun value hvalue => ?_⟩
    · have hsame (arg : Arg Value) (harg : arg ∈ args) : arg = .untagged arg.value := by
        obtain ⟨tag, value⟩ := arg
        obtain ⟨rfl, -⟩ := Arg.isPlain_iff.1 (hplain _ harg)
        rfl
      rw [List.map_map]
      exact (List.map_id args).symm.trans (List.map_congr_left hsame)
    · obtain ⟨arg, harg, rfl⟩ := List.mem_map.1 hvalue
      exact (Arg.isPlain_iff.1 (hplain arg harg)).2
  · cases h

theorem argsCalledNames_of_plainValues {args : ArgList} {values : List Value}
    (h : plainValues? args = some values) :
    Value.argsCalledNames args = values.flatMap Value.calledNames := by
  unfold plainValues? at h
  split at h
  · cases h
    exact Value.argsCalledNames_eq args
  · cases h

/-! ## Reading a body -/

section

variable (op : Symbol → Option LoopOp) (var accumulator : Symbol)

mutual

/-- An increment of a loop over `var` that accumulates into `accumulator` is read as a loop
    expression. -/
inductive Lowers : Value → LoopExpr → Prop where
  | index : Lowers (.symbol var) .index
  | constant {id : Identity} {x : Float} : Lowers (.vector ⟨id, .double #[x], .empty⟩) (.constant x)
  | invariant {name : Symbol} (hvar : name ≠ var) (haccumulator : name ≠ accumulator)
      (hmissing : name.isMissing = false) (hellipsis : name.isEllipsis = false) :
      Lowers (.symbol name) (.invariant name)
  | apply {id : Identity} {name : Symbol} {args : ArgList} {operation : LoopOp}
      {operands : List LoopExpr} {e : LoopExpr} (hplain : args.all Arg.isPlain = true)
      (hop : op name = some operation) (hargs : LowersAll args operands)
      (he : operation.expr? operands = some e) : Lowers (.call ⟨id, .symbol name, args⟩) e

/-- The arguments of a call are read as loop expressions. -/
inductive LowersAll : ArgList → List LoopExpr → Prop where
  | nil : LowersAll [] []
  | cons {tag : Option Symbol} {value : Value} {rest : ArgList} {e : LoopExpr}
      {operands : List LoopExpr} (h : Lowers value e) (hrest : LowersAll rest operands) :
      LowersAll (⟨tag, value⟩ :: rest) (e :: operands)

end

/-- The statement is `accumulator <- accumulator + increment`. -/
inductive Accumulates (increment : Value) : (statement : Value) → Prop where
  | intro {id₁ id₂ : Identity} {assign plus : Symbol} {args operands : ArgList}
      (hassign : op assign = some .assign) (hplus : op plus = some (.binary .add))
      (hargs : plainValues? args =
        some [.symbol accumulator, .call ⟨id₂, .symbol plus, operands⟩])
      (hoperands : plainValues? operands = some [.symbol accumulator, increment])
      (hvar : accumulator ≠ var) (hmissing : accumulator.isMissing = false)
      (hellipsis : accumulator.isEllipsis = false) :
      Accumulates increment (.call ⟨id₁, .symbol assign, args⟩)

/-- The body, or the only statement of the block that it is, adds an expression to `accumulator`. -/
inductive LowersBody : (body : Value) → (e : LoopExpr) → Prop where
  | statement {increment statement : Value} {e : LoopExpr}
      (hstatement : Accumulates op var accumulator increment statement)
      (hincrement : Lowers op var accumulator increment e) : LowersBody statement e
  | block {id : Identity} {args : ArgList} {increment statement : Value} {e : LoopExpr}
      (hblock : op ⟨"\x7b"⟩ = some .block) (hargs : plainValues? args = some [statement])
      (hstatement : Accumulates op var accumulator increment statement)
      (hincrement : Lowers op var accumulator increment e) :
      LowersBody (.call ⟨id, .symbol ⟨"\x7b"⟩, args⟩) e

end

section

variable {op : Symbol → Option LoopOp} {var accumulator : Symbol} {name : Symbol}

/-! Every name that a body calls is read as an operation. -/

mutual

theorem Lowers.reads {expr : Value} {e : LoopExpr} (h : Lowers op var accumulator expr e)
    (hname : name ∈ expr.calledNames) : (op name).isSome := by
  cases h with
  | index => simp [Value.calledNames] at hname
  | constant => simp [Value.calledNames] at hname
  | invariant => simp [Value.calledNames] at hname
  | apply _ hop hargs _ =>
    rw [Value.calledNames_call] at hname
    rcases List.mem_cons.1 hname with rfl | hname
    · rw [hop]; rfl
    · exact hargs.reads hname
termination_by sizeOf expr

theorem LowersAll.reads {args : ArgList} {operands : List LoopExpr}
    (h : LowersAll op var accumulator args operands)
    (hname : name ∈ Value.argsCalledNames args) : (op name).isSome := by
  cases h with
  | nil => cases hname
  | cons hvalue hrest =>
    rw [Value.argsCalledNames] at hname
    rcases List.mem_append.1 hname with hname | hname
    · exact hvalue.reads hname
    · exact hrest.reads hname
termination_by sizeOf args

end

/-- The names that the arguments of `accumulator <- accumulator + increment` call. -/
theorem argsCalledNames_of_accumulation {increment : Value} {id₂ : Identity} {plus : Symbol}
    {args operands : ArgList}
    (hargs : plainValues? args =
      some [.symbol accumulator, .call ⟨id₂, .symbol plus, operands⟩])
    (hoperands : plainValues? operands = some [.symbol accumulator, increment]) :
    Value.argsCalledNames args = plus :: increment.calledNames := by
  rw [argsCalledNames_of_plainValues hargs]
  simp [Value.calledNames, argsCalledNames_of_plainValues hoperands]

theorem Accumulates.reads {increment statement : Value} {e : LoopExpr}
    (h : Accumulates op var accumulator increment statement)
    (hincrement : Lowers op var accumulator increment e) (hname : name ∈ statement.calledNames) :
    (op name).isSome := by
  obtain ⟨hassign, hplus, hargs, hoperands, -⟩ := h
  rw [Value.calledNames_call, argsCalledNames_of_accumulation hargs hoperands] at hname
  rcases List.mem_cons.1 hname with rfl | hname
  · rw [hassign]; rfl
  · rcases List.mem_cons.1 hname with rfl | hname
    · rw [hplus]; rfl
    · exact hincrement.reads hname

theorem LowersBody.reads {body : Value} {e : LoopExpr} (h : LowersBody op var accumulator body e)
    (hname : name ∈ body.calledNames) : (op name).isSome := by
  cases h with
  | statement hstatement hincrement => exact hstatement.reads hincrement hname
  | block hblock hargs hstatement hincrement =>
    rw [Value.calledNames_call, argsCalledNames_of_plainValues hargs] at hname
    rcases List.mem_cons.1 hname with rfl | hname
    · rw [hblock]; rfl
    · exact hstatement.reads hincrement (by simpa using hname)

theorem LowersBody.accumulator_ne {body : Value} {e : LoopExpr}
    (h : LowersBody op var accumulator body e) : accumulator ≠ var := by
  cases h with
  | statement hstatement =>
    cases hstatement with
    | intro _ _ _ _ hvar => exact hvar
  | block _ _ hstatement =>
    cases hstatement with
    | intro _ _ _ _ hvar => exact hvar

end

namespace Accumulation

/-- The operations that the names of the guard stand for. -/
def op (loop : Accumulation) (name : Symbol) : Option LoopOp :=
  (loop.guard.find? (·.name == name)).bind (·.builtin.loopOp?)

/-- The loop is what its guard, which is about the names that the body calls, makes of the body. -/
structure Renders (loop : Accumulation) (var : Symbol) (body : Value) : Prop where
  guard : ∀ g ∈ loop.guard, g.name ∈ body.calledNames
  lowers : LowersBody loop.op var loop.accumulator body loop.increment
  invariants : loop.invariants = loop.increment.invariants

end Accumulation

/-! ## What an analysis does -/

/-- The guard says what its names stand for as seen from `env`. -/
def Session.Fits (s : Session) (env : EnvId) (guard : List GuardedName) : Prop :=
  ∀ g ∈ guard, s.resolve? env g.name = some (some (.builtin g.identity g.builtin))

/-- The names are read as the guard says. -/
def ReadBy (op : Symbol → Option LoopOp) (guard : List GuardedName) : Prop :=
  ∀ g ∈ guard, op g.name = g.builtin.loopOp?

namespace AnalysisM

variable {α β : Type} {x : AnalysisM α} {f : α → AnalysisM β} {s t : Session}
  {guard guard' : List GuardedName}

/-! Running one analysis after another. -/

theorem bind_run_some {a : α} (h : x guard s = (.ok (some (a, guard')), t)) :
    (x >>= f) guard s = f a guard' t :=
  SessionM.bind_run_ok h _

theorem bind_run_none (h : x guard s = (.ok none, t)) : (x >>= f) guard s = (.ok none, t) :=
  SessionM.bind_run_ok h _

theorem bind_run_error {e : Interrupt} (h : x guard s = (.error e, t)) :
    (x >>= f) guard s = (.error e, t) :=
  SessionM.bind_run_error h _

/-- Where two analyses together find something, the first one finds something. -/
theorem exists_of_bind_run {b : β} (h : (x >>= f) guard s = (.ok (some (b, guard')), t)) :
    ∃ a guard₁ u, x guard s = (.ok (some (a, guard₁)), u) ∧
      f a guard₁ u = (.ok (some (b, guard')), t) := by
  rcases hx : x guard s with ⟨_ | (_ | ⟨a, guard₁⟩), u⟩
  · rw [bind_run_error hx] at h
    cases h
  · rw [bind_run_none hx] at h
    cases h
  · rw [bind_run_some hx] at h
    exact ⟨a, guard₁, u, rfl, h⟩

end AnalysisM

/-- In the session, looking a function up under any of the names leaves the session as it is;
    `stuck` says whether that may run out of fuel. -/
def Evaluator.LooksQuietly (ev : Evaluator) (env : EnvId) (names : List Symbol) (stuck : Prop)
    (s : Session) : Prop :=
  ∀ name ∈ names, (∃ found, SessionM.attempt (ev.function? env name) s = (.ok found, s)) ∨
    stuck ∧ SessionM.attempt (ev.function? env name) s = (.error .exhausted, s)

/-- Names that no frame binds to a waiting promise are looked up quietly, or run out of fuel. -/
theorem Session.Settled.looksQuietly {s : Session} {env : EnvId} {names : List Symbol}
    (h : s.Settled env names) (ev : Evaluator) : ev.LooksQuietly env names True s := by
  intro name hname
  obtain ⟨outcome, hrun⟩ := ev.functionWithin_run_settled (h name hname)
  have hrun : ev.function? env name s = (outcome, s) := hrun
  rcases outcome with (_ | _ | _) | found
  · exact .inl ⟨none, by simp only [SessionM.attempt, hrun]⟩
  · exact .inl ⟨none, by simp only [SessionM.attempt, hrun]⟩
  · exact .inr ⟨trivial, by simp only [SessionM.attempt, hrun]⟩
  · exact .inl ⟨some found, SessionM.attempt_run_ok hrun⟩

/-- What an analysis that looks names up in `env` does: its result has the property `r`, and the
    guard that it hands on has further `names` in it only; and unless it forced a promise it left
    the session as it was, and its result is right by `p` for any reading of the names as the
    guard says. -/
structure Reads {α : Type} (fuel : Nat) (env : EnvId) (names : List Symbol) (x : AnalysisM α)
    (r : α → Prop) (p : (Symbol → Option LoopOp) → α → Prop) : Prop where
  keeps : ∀ {s t guard a guard'}, x guard s = (.ok (some (a, guard')), t) → s.KeepsPromises t
  guard : ∀ {s t guard a guard'}, x guard s = (.ok (some (a, guard')), t) →
    r a ∧ guard ⊆ guard' ∧ ∀ g ∈ guard', g ∈ guard ∨ g.name ∈ names
  found : ∀ {s t guard a guard'}, x guard s = (.ok (some (a, guard')), t) → t.KeepsPromises s →
    t = s ∧ (s.Fits env guard → s.Fits env guard' ∧ ∀ op, ReadBy op guard' → p op a)
  quiet : ∀ {s stuck} guard, (evaluator fuel).LooksQuietly env names stuck s →
    (∃ found, x guard s = (.ok found, s)) ∨ stuck ∧ x guard s = (.error .exhausted, s)

namespace Reads

variable {α β : Type} {fuel : Nat} {env : EnvId} {names : List Symbol} {r : α → Prop}
  {p : (Symbol → Option LoopOp) → α → Prop} {r' : β → Prop}
  {q : (Symbol → Option LoopOp) → β → Prop}

theorem of_pure {a : α} (hr : r a) (h : ∀ op, p op a) : Reads fuel env names (pure a) r p where
  keeps hrun := by cases hrun; exact .of_promises rfl
  guard hrun := by cases hrun; exact ⟨hr, List.Subset.refl _, fun _ => .inl⟩
  found hrun _ := by cases hrun; exact ⟨rfl, fun hfits => ⟨hfits, fun op _ => h op⟩⟩
  quiet _ _ := .inl ⟨_, rfl⟩

theorem of_failure : Reads fuel env names failure r p where
  keeps hrun := by cases hrun
  guard hrun := by cases hrun
  found hrun _ := by cases hrun
  quiet _ _ := .inl ⟨_, rfl⟩

theorem of_failure_bind (f : β → AnalysisM α) : Reads fuel env names (failure >>= f) r p where
  keeps hrun := by cases hrun
  guard hrun := by cases hrun
  found hrun _ := by cases hrun
  quiet _ _ := .inl ⟨_, rfl⟩

theorem of_option {found : Option α} (h : ∀ a, found = some a → r a ∧ ∀ op, p op a) :
    Reads fuel env names (StateT.lift (OptionT.mk (pure found))) r p := by
  cases found with
  | none => exact of_failure
  | some a => exact of_pure (h a rfl).1 (h a rfl).2

theorem bind {x : AnalysisM α} {f : α → AnalysisM β} (hx : Reads fuel env names x r p)
    (hf : ∀ a, r a → Reads fuel env names (f a) r' fun op b => p op a → q op b) :
    Reads fuel env names (x >>= f) r' q := by
  refine ⟨fun hrun => ?_, fun hrun => ?_, fun hrun hback => ?_, fun {s stuck} guard hquiet => ?_⟩
  · obtain ⟨a, guard', u, hrunx, hrunf⟩ := AnalysisM.exists_of_bind_run hrun
    exact (hx.keeps hrunx).trans ((hf a (hx.guard hrunx).1).keeps hrunf)
  · obtain ⟨a, guard', u, hrunx, hrunf⟩ := AnalysisM.exists_of_bind_run hrun
    obtain ⟨hr, hsub, hnames⟩ := hx.guard hrunx
    obtain ⟨hr', hsub', hnames'⟩ := (hf a hr).guard hrunf
    exact ⟨hr', List.Subset.trans hsub hsub', fun g hg => (hnames' g hg).elim (hnames g) .inr⟩
  -- if no promise was forced by the two together, none was forced by either of them
  · obtain ⟨a, guard', u, hrunx, hrunf⟩ := AnalysisM.exists_of_bind_run hrun
    have hreads := hf a (hx.guard hrunx).1
    obtain ⟨rfl, hfits⟩ := hx.found hrunx ((hreads.keeps hrunf).trans hback)
    obtain ⟨rfl, hfits'⟩ := hreads.found hrunf hback
    refine ⟨rfl, fun hguard => ?_⟩
    obtain ⟨hguard', hp⟩ := hfits hguard
    obtain ⟨hguard'', hq⟩ := hfits' hguard'
    -- the first analysis read its names by a guard that the second one has only added to
    refine ⟨hguard'', fun op hop => hq op hop (hp op fun g hg => hop g ?_)⟩
    exact (hreads.guard hrunf).2.1 hg
  · rcases hx.quiet guard hquiet with ⟨_ | ⟨a, guard'⟩, hrunx⟩ | ⟨hstuck, hrunx⟩
    · exact .inl ⟨none, AnalysisM.bind_run_none hrunx⟩
    · rw [AnalysisM.bind_run_some hrunx]
      exact (hf a (hx.guard hrunx).1).quiet _ hquiet
    · exact .inr ⟨hstuck, AnalysisM.bind_run_error hrunx⟩

theorem ite {c : Prop} [Decidable c] {x y : AnalysisM α} (hpos : c → Reads fuel env names x r p)
    (hneg : ¬ c → Reads fuel env names y r p) :
    Reads fuel env names (if c then x else y) r p := by
  split
  · exact hpos ‹_›
  · exact hneg ‹_›

end Reads

/-! ## Looking up an operation -/

/-- The guard with one more name in it, unless it is there already. -/
def recordName (guard : List GuardedName) (g : GuardedName) : List GuardedName :=
  if guard.any (·.name == g.name) then guard else guard ++ [g]

/-- The operation of a function that was looked up, and the guard that records it. -/
def operationOf? (name : Symbol) (guard : List GuardedName) :
    Option (Option Value) → Option (LoopOp × List GuardedName)
  | some (some (.builtin identity builtin)) =>
    builtin.loopOp?.map fun op => (op, recordName guard ⟨name, identity, builtin⟩)
  | _ => none

theorem subset_recordName (guard : List GuardedName) (g : GuardedName) :
    guard ⊆ recordName guard g := by
  unfold recordName
  split
  · exact List.Subset.refl _
  · exact List.subset_append_left _ _

theorem mem_recordName {guard : List GuardedName} {g g' : GuardedName}
    (h : g' ∈ recordName guard g) : g' ∈ guard ∨ g' = g := by
  unfold recordName at h
  split at h
  · exact .inl h
  · simpa using h

theorem exists_mem_recordName (guard : List GuardedName) (g : GuardedName) :
    ∃ g' ∈ recordName guard g, g'.name = g.name := by
  unfold recordName
  split
  · rename_i hany
    obtain ⟨g', hmem, hname⟩ := List.any_eq_true.1 hany
    exact ⟨g', hmem, by simpa using hname⟩
  · exact ⟨g, by simp, rfl⟩

theorem eq_of_operationOf? {name : Symbol} {guard guard' : List GuardedName}
    {found : Option (Option Value)} {op : LoopOp}
    (h : operationOf? name guard found = some (op, guard')) :
    ∃ identity builtin, found = some (some (.builtin identity builtin)) ∧
      builtin.loopOp? = some op ∧ guard' = recordName guard ⟨name, identity, builtin⟩ := by
  unfold operationOf? at h
  split at h
  · rename_i identity builtin
    obtain ⟨op', hop, heq⟩ := Option.map_eq_some_iff.1 h
    cases heq
    exact ⟨identity, builtin, rfl, hop, rfl⟩
  · cases h

namespace Evaluator

variable (ev : Evaluator) {env : EnvId} {name : Symbol} {guard : List GuardedName} {s t : Session}

theorem loopOp_run_ok {found : Option (Option Value)}
    (h : SessionM.attempt (ev.function? env name) s = (.ok found, t)) :
    ev.loopOp env name guard s = (.ok (operationOf? name guard found), t) := by
  have hlift : ((SessionM.attempt (ev.function? env name) : SessionM _) : AnalysisM _) guard s =
      (.ok (some (found, guard)), t) := by
    change (some <$> SessionM.attempt (ev.function? env name) >>= _ : SessionM _) s = _
    have hmap : (some <$> SessionM.attempt (ev.function? env name)) s = (.ok (some found), t) := by
      rw [← bind_pure_comp]
      exact SessionM.bind_run_ok h _
    rw [SessionM.bind_run_ok hmap]
    rfl
  rw [loopOp, AnalysisM.bind_run_some hlift]
  rcases found with _ | _ | function
  · rfl
  · rfl
  · cases function with
    | builtin identity builtin =>
      simp only [operationOf?]
      cases builtin.loopOp? <;> rfl
    | _ => rfl

theorem loopOp_run_error {e : Interrupt}
    (h : SessionM.attempt (ev.function? env name) s = (.error e, t)) :
    ev.loopOp env name guard s = (.error e, t) := by
  have hmap : (some <$> SessionM.attempt (ev.function? env name)) s = (.error e, t) := by
    rw [← bind_pure_comp]
    exact SessionM.bind_run_error h _
  exact AnalysisM.bind_run_error (SessionM.bind_run_error hmap _)

end Evaluator

theorem SessionM.eq_ok_of_attempt {α : Type} {act : SessionM α} {a : α} {s t : Session}
    (h : attempt act s = (.ok (some a), t)) : act s = (.ok a, t) := by
  rcases hact : act s with ⟨(_ | ⟨_, _⟩ | _) | _, _⟩ <;> simp only [attempt, hact] at h <;> cases h
  rfl

/-- Where a look-up of an operation finds one, the name stands for its builtin, and that is
    recorded. -/
theorem Evaluator.exists_of_loopOp_run {ev : Evaluator} {env : EnvId} {name : Symbol}
    {guard guard' : List GuardedName} {o : LoopOp} {s t : Session}
    (h : ev.loopOp env name guard s = (.ok (some (o, guard')), t)) :
    ∃ identity builtin, ev.function? env name s = (.ok (some (.builtin identity builtin)), t) ∧
      builtin.loopOp? = some o ∧ guard' = recordName guard ⟨name, identity, builtin⟩ := by
  rcases hlook : SessionM.attempt (ev.function? env name) s with ⟨_ | found, u⟩
  · rw [ev.loopOp_run_error hlook] at h
    cases h
  · rw [ev.loopOp_run_ok hlook] at h
    obtain ⟨hfound, rfl⟩ := Prod.mk.inj h
    obtain ⟨identity, builtin, rfl, hop, rfl⟩ := eq_of_operationOf? (Except.ok.inj hfound)
    exact ⟨identity, builtin, SessionM.eq_ok_of_attempt hlook, hop, rfl⟩

namespace Reads

variable {fuel : Nat} {env : EnvId} {names : List Symbol}

theorem of_loopOp {name : Symbol} (hname : name ∈ names) :
    Reads fuel env names ((evaluator fuel).loopOp env name) (fun _ => True)
      fun op o => op name = some o := by
  refine ⟨fun hrun => ?_, fun hrun => ?_, fun {s t guard _ _} hrun hback => ?_,
    fun {s stuck} guard hquiet => ?_⟩
  · obtain ⟨_, _, hlook, -⟩ := Evaluator.exists_of_loopOp_run hrun
    exact Evaluator.keepsPromises_of_function? hlook
  · obtain ⟨_, _, -, -, rfl⟩ := Evaluator.exists_of_loopOp_run hrun
    refine ⟨trivial, subset_recordName _ _, fun g hg => (mem_recordName hg).imp_right ?_⟩
    rintro rfl
    exact hname
  · obtain ⟨identity, builtin, hlook, hop, rfl⟩ := Evaluator.exists_of_loopOp_run hrun
    obtain ⟨hresolve, rfl⟩ := Evaluator.resolve?_of_run hlook hback
    refine ⟨rfl, fun hfits => ?_⟩
    have hfits' : t.Fits env (recordName guard ⟨name, identity, builtin⟩) := by
      intro g hg
      rcases mem_recordName hg with hg | rfl
      · exact hfits g hg
      · exact hresolve
    refine ⟨hfits', fun op hread => ?_⟩
    -- the guard may name the function since before; it fits `t`, so it names the same builtin
    obtain ⟨g, hg, hgname⟩ := exists_mem_recordName guard ⟨name, identity, builtin⟩
    have hsame := hfits' g hg
    rw [hgname, hresolve] at hsame
    cases hsame
    rw [← hop, ← hread g hg, hgname]
  · rcases hquiet name hname with ⟨found, hlook⟩ | ⟨hstuck, hlook⟩
    · exact .inl ⟨_, Evaluator.loopOp_run_ok _ hlook⟩
    · exact .inr ⟨hstuck, Evaluator.loopOp_run_error _ hlook⟩

end Reads

/-! ## The analysis of a body -/

section

variable {fuel : Nat} {env : EnvId} {names : List Symbol} {var accumulator : Symbol}

mutual

theorem reads_loopExprOf {expr : Value} (h : expr.calledNames ⊆ names) :
    Reads fuel env names ((evaluator fuel).loopExprOf env var accumulator expr)
      (fun _ => True) fun op e => Lowers op var accumulator expr e := by
  match expr with
  -- one case for each form that is read; all others are no increments
  | .symbol name =>
    refine .ite (fun hvar => ?_) fun hvar => .ite (fun _ => .of_failure) fun hname => ?_
    · subst hvar
      exact .of_pure trivial fun _ => .index
    · simp only [Bool.or_eq_true, decide_eq_true_eq, not_or, Bool.not_eq_true] at hname
      exact .of_pure trivial fun _ => .invariant hvar hname.1.1 hname.1.2 hname.2
  | .vector ⟨id, elements, attributes⟩ =>
    cases elements with
    | double xs =>
      unfold Evaluator.loopExprOf
      split
      · rename_i x hxs
        refine .ite (fun hempty => ?_) fun _ => .of_failure
        obtain rfl : xs = #[x] := Array.toList_inj.1 hxs
        obtain ⟨entries⟩ := attributes
        obtain rfl : entries = [] := List.isEmpty_iff.1 hempty
        exact .of_pure trivial fun _ => .constant
      · exact .of_failure
    | _ => exact .of_failure
  | .call ⟨_, function, args⟩ =>
    cases function with
    | symbol name =>
      rw [Value.calledNames_call] at h
      refine .ite (fun hplain => ?_) fun _ => .of_failure
      refine (Reads.of_loopOp (h List.mem_cons_self)).bind fun operation _ => ?_
      refine (reads_loopExprsOf (List.subset_of_cons_subset h)).bind fun operands _ => ?_
      exact .of_option fun e he => ⟨trivial, fun op hargs hop => .apply hplain hop hargs he⟩
    | _ => exact .of_failure
  | .null | .list _ | .dots _ | .closure _ | .builtin _ _ | .promise _ | .environment _ =>
    exact .of_failure

theorem reads_loopExprsOf {args : ArgList} (h : Value.argsCalledNames args ⊆ names) :
    Reads fuel env names ((evaluator fuel).loopExprsOf env var accumulator args)
      (fun _ => True) fun op operands => LowersAll op var accumulator args operands := by
  match args with
  | [] => exact .of_pure trivial fun _ => .nil
  | ⟨_, value⟩ :: rest =>
    rw [Value.argsCalledNames] at h
    obtain ⟨hvalue, hrest⟩ := List.append_subset.1 h
    refine (reads_loopExprOf hvalue).bind fun operand _ => ?_
    refine (reads_loopExprsOf hrest).bind fun operands _ => ?_
    exact .of_pure trivial fun op hargs hoperand => .cons hoperand hargs

end

theorem eq_of_namedCall? {value : Value} {name : Symbol} {args : ArgList}
    (h : value.namedCall? = some (name, args)) : ∃ id, value = .call ⟨id, .symbol name, args⟩ := by
  unfold Value.namedCall? at h
  split at h
  · cases h
    exact ⟨_, rfl⟩
  · cases h

theorem reads_accumulationOf {statement : Value} (h : statement.calledNames ⊆ names) :
    Reads fuel env names ((evaluator fuel).accumulationOf env var statement)
      (fun found => found.2.calledNames ⊆ names)
      fun op found => Accumulates op var found.1 found.2 statement := by
  unfold Evaluator.accumulationOf
  split
  · rename_i assign args hcall
    obtain ⟨id₁, rfl⟩ := eq_of_namedCall? hcall
    rw [Value.calledNames_call] at h
    split
    · rename_i target value hargs
      refine (Reads.of_loopOp (h List.mem_cons_self)).bind fun first _ =>
        .ite (fun hfirst => ?_) fun _ => .of_failure_bind _
      split
      · rename_i accumulator
        refine .ite (fun _ => .of_failure_bind _) fun haccumulator => ?_
        simp only [Bool.or_eq_true, decide_eq_true_eq, not_or, Bool.not_eq_true] at haccumulator
        obtain ⟨⟨hvar, hmissing⟩, hellipsis⟩ := haccumulator
        split
        · rename_i plus operands hvalue
          obtain ⟨id₂, rfl⟩ := eq_of_namedCall? hvalue
          split
          · rename_i left increment hoperands
            refine .ite (fun hleft => ?_) fun _ => .of_failure_bind _
            obtain rfl := hleft
            rw [argsCalledNames_of_accumulation hargs hoperands] at h
            have hincrement : increment.calledNames ⊆ names :=
              List.subset_of_cons_subset (List.subset_of_cons_subset h)
            have hplus := h (List.mem_cons_of_mem _ List.mem_cons_self)
            refine (Reads.of_loopOp hplus).bind fun second _ =>
              .ite (fun hsecond => .of_pure hincrement fun op hop₂ hop₁ => ?_)
                fun _ => .of_failure_bind _
            exact .intro (hfirst ▸ hop₁) (hsecond ▸ hop₂) hargs hoperands hvar hmissing hellipsis
          · exact .of_failure
        · exact .of_failure
      · exact .of_failure
    · exact .of_failure
  · exact .of_failure

theorem reads_statement {statement : Value} (h : statement.calledNames ⊆ names)
    {q : (Symbol → Option LoopOp) → Symbol × LoopExpr → Prop}
    (hq : ∀ op accumulator increment e, Accumulates op var accumulator increment statement →
      Lowers op var accumulator increment e → q op (accumulator, e)) :
    Reads fuel env names
      (do
        let (accumulator, increment) ← (evaluator fuel).accumulationOf env var statement
        return (accumulator, ← (evaluator fuel).loopExprOf env var accumulator increment))
      (fun _ => True) q := by
  refine (reads_accumulationOf h).bind fun (accumulator, increment) hincrement => ?_
  refine (reads_loopExprOf hincrement).bind fun e _ => .of_pure trivial ?_
  exact fun op hlowers haccumulates => hq op _ _ _ haccumulates hlowers

variable (var) in
/-- The analysis of a body reads it as an accumulation. -/
theorem reads_accumulationBody {body : Value} (h : body.calledNames ⊆ names) :
    Reads fuel env names ((evaluator fuel).accumulationBody env var body) (fun _ => True)
      fun op found => LowersBody op var found.1 body found.2 := by
  unfold Evaluator.accumulationBody Evaluator.statementOf
  split
  · rename_i args hcall
    obtain ⟨id, rfl⟩ := eq_of_namedCall? hcall
    rw [Value.calledNames_call] at h
    split
    · rename_i statement hargs
      have hstatement : statement.calledNames ⊆ names :=
        by simpa [argsCalledNames_of_plainValues hargs] using List.subset_of_cons_subset h
      rw [bind_assoc]
      refine (Reads.of_loopOp (h List.mem_cons_self)).bind fun operation _ => ?_
      split
      · -- a block with one statement is read like the statement, provided that it is the builtin
        -- block
        rename_i hblock
        rw [pure_bind]
        refine reads_statement hstatement fun op _ _ _ haccumulates hlowers hop => ?_
        exact .block (hblock ▸ hop) hargs haccumulates hlowers
      · exact .of_failure_bind _
    · exact .of_failure_bind _
  · rw [pure_bind]
    exact reads_statement h fun op _ _ _ haccumulates hlowers => .statement haccumulates hlowers

end

/-! ## The analysis of a loop -/

/-- A guard that fits a session reads each of its names as the builtin that it records. -/
theorem Accumulation.readBy_op {loop : Accumulation} {s : Session} {env : EnvId}
    (h : s.Fits env loop.guard) : ReadBy loop.op loop.guard := by
  intro g hg
  cases hfind : loop.guard.find? (·.name == g.name) with
  | none => simpa using List.find?_eq_none.1 hfind g hg
  | some g' =>
    have hname : g'.name = g.name := by simpa using List.find?_some hfind
    -- two entries of one name agree, since both say what it resolves to
    have hsame := h g' (List.mem_of_find?_eq_some hfind)
    rw [hname, h g hg] at hsame
    have hbuiltin : g.builtin = g'.builtin := by simp_all
    simp only [Accumulation.op, hfind, Option.bind_some, hbuiltin]

namespace Evaluator

variable {fuel : Nat} {env : EnvId} {var : Symbol} {body : Value} {s t : Session}
  {loop : Accumulation}

theorem accumulationBody_of_analyze {ev : Evaluator}
    (h : ev.analyze env var body s = (.ok (some loop), t)) :
    ev.accumulationBody env var body [] s =
        (.ok (some ((loop.accumulator, loop.increment), loop.guard)), t) ∧
      loop.invariants = loop.increment.invariants := by
  rcases hbody : ev.accumulationBody env var body [] s with
    ⟨_ | (_ | ⟨⟨accumulator, increment⟩, guard⟩), u⟩
  · cases (SessionM.bind_run_error hbody _).symm.trans h
  · cases (SessionM.bind_run_ok hbody _).symm.trans h
  · have hrun := (SessionM.bind_run_ok hbody _).symm.trans h
    simp only [SessionM.get_bind_run] at hrun
    split at hrun
    · cases hrun
      exact ⟨rfl, rfl⟩
    · cases hrun

/-- Whatever an analysis evaluates, its guard names functions that the body calls. -/
theorem guard_of_analyze (h : (evaluator fuel).analyze env var body s = (.ok (some loop), t)) :
    ∀ g ∈ loop.guard, g.name ∈ body.calledNames := by
  obtain ⟨hrun, -⟩ := accumulationBody_of_analyze h
  obtain ⟨-, -, hnames⟩ := (reads_accumulationBody var (List.Subset.refl _)).guard hrun
  exact fun g hg => (hnames g hg).resolve_left (by simp)

/-- An analysis that forced no promise left the session as it was, and the loop that it found is
    what its guard, which fits the session, makes of the body. -/
theorem renders_of_analyze (h : (evaluator fuel).analyze env var body s = (.ok (some loop), t))
    (hback : t.KeepsPromises s) : t = s ∧ s.Fits env loop.guard ∧ loop.Renders var body := by
  obtain ⟨hrun, hinvariants⟩ := accumulationBody_of_analyze h
  obtain ⟨rfl, hfound⟩ := (reads_accumulationBody var (List.Subset.refl _)).found hrun hback
  obtain ⟨hfits, hlowers⟩ := hfound fun _ hg => nomatch hg
  exact ⟨rfl, hfits, guard_of_analyze h, hlowers _ (Accumulation.readBy_op hfits), hinvariants⟩

variable (var) in
/-- An analysis leaves the session as it is if the names that the body calls can be looked up
    quietly. -/
theorem analyze_run_quiet {stuck : Prop}
    (h : (evaluator fuel).LooksQuietly env body.calledNames stuck s) :
    (∃ found, (evaluator fuel).analyze env var body s = (.ok found, s)) ∨
      stuck ∧ (evaluator fuel).analyze env var body s = (.error .exhausted, s) := by
  rcases (reads_accumulationBody var (List.Subset.refl _)).quiet [] h with
    ⟨found, hrun⟩ | ⟨hstuck, hrun⟩
  · refine .inl ?_
    rw [analyze, StateT.run, SessionM.bind_run_ok hrun]
    split
    · exact ⟨_, rfl⟩
    · simp only [SessionM.get_bind_run]
      split
      · exact ⟨_, rfl⟩
      · exact ⟨_, rfl⟩
  · exact .inr ⟨hstuck, SessionM.bind_run_error hrun _⟩

variable (var) in
/-- The decision about a new instance changes the record of loops only, if the names that the body
    calls can be looked up quietly.  What is recorded then was recorded before or was found now. -/
theorem ensureAnalyzed_run_quiet {call : Call} {stuck : Prop} {p : Accumulation → Prop}
    (h : (evaluator fuel).LooksQuietly env body.calledNames stuck s.countAnalysis)
    (hrecord : ∀ loop, (s.loops.status? call).bind LoopStatus.accumulation? = some loop → p loop)
    (hfound : ∀ loop, (evaluator fuel).analyze env var body s.countAnalysis =
      (.ok (some loop), s.countAnalysis) → p loop) :
    (∃ loops stats,
      (evaluator fuel).ensureAnalyzed call env var body s = (.ok (), { s with loops, stats }) ∧
        ∀ loop, (loops.status? call).bind LoopStatus.accumulation? = some loop → p loop) ∨
      stuck ∧ (evaluator fuel).ensureAnalyzed call env var body s =
        (.error .exhausted, s.countAnalysis) := by
  cases hknown : s.loops.contains call with
  | true =>
    exact .inl ⟨s.loops, s.stats, ensureAnalyzed_run_known _ env var body hknown, hrecord⟩
  | false =>
    rw [ensureAnalyzed_run_new _ env var body hknown]
    -- a new instance: what is recorded of it is what its analysis found
    rcases analyze_run_quiet var h with ⟨found, hrun⟩ | ⟨hstuck, hrun⟩ <;> rw [hrun]
    · refine .inl ⟨s.loops.insert call (.ofAnalysis found), s.countAnalysis.stats, rfl, ?_⟩
      intro loop hloop
      rw [LoopTable.status?_insert_self] at hloop
      cases found with
      | none => cases hloop
      | some _ =>
        cases hloop
        exact hfound loop hrun
    · exact .inr ⟨hstuck, rfl⟩

end Evaluator

end CallByNeed
