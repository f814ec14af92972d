import CallByNeed.Proofs.Iteration
import CallByNeed.Proofs.Roots
import Mathlib.Data.List.Nodup

/-!
# Increments and their lanes

An analysis looks up the function of every call in an increment, one after the
other.  It reads the increment by the builtins that it finds, and its guard
records them (`records_loopExprOf`), but of each name only the first one.  A
second one is there if the analysis forced a promise that changed what the name
stands for; then the guard does not say what the increment was read as.  In all
other cases the lane of the loop expression has in every iteration the numbers
that the increment evaluates to (`increment_evaluates`).
-/

namespace CallByNeed

/-! ## Lanes that do not vary -/

theorem Lane.varying_map {op : ElementwiseOp} {lanes : List Lane} {result : Lane}
    (h : map op lanes = .ok result) : result.varying = lanes.any (·.varying) := by
  unfold map at h
  split at h
  · cases h
    simp
  · split at h
    · cases h
    · cases h
      simp
  · cases h

section

variable {sequence : Array Float} {given : List (Symbol × DoubleVector)} {kernels : KernelTable}

mutual

/-- An expression that does not read the loop variable has a lane that does not vary. -/
theorem LoopExpr.varying_of_evaluate {e : LoopExpr} {lane : Lane}
    (h : e.evaluate sequence given kernels = .ok lane) (hindex : e.readsIndex = false) :
    lane.varying = false := by
  match e with
  | .index => cases hindex
  | .constant x =>
    cases h
    rfl
  | .invariant name =>
    rw [LoopExpr.evaluate] at h
    split at h
    · cases h
      rfl
    · cases h
  | .map op operands =>
    obtain ⟨lanes, hlanes, -, hmap⟩ := LoopExpr.evaluate_map h
    rw [LoopExpr.readsIndex] at hindex
    rw [Lane.varying_map hmap]
    exact LoopExpr.varying_of_evaluateAll hlanes hindex
  | .computation name operand =>
    obtain ⟨l, -, hcompute⟩ := LoopExpr.evaluate_computation h
    obtain ⟨-, _, values, -, -, rfl⟩ := Lane.compute_ok hcompute
    rfl

theorem LoopExpr.varying_of_evaluateAll {operands : List LoopExpr} {lanes : List Lane}
    (h : LoopExpr.evaluateAll sequence given kernels operands = .ok lanes)
    (hindex : LoopExpr.anyReadsIndex operands = false) : lanes.any (·.varying) = false := by
  match operands with
  | [] =>
    cases h
    rfl
  | e :: rest =>
    obtain ⟨l, others, hlane, hothers, rfl⟩ := LoopExpr.evaluateAll_cons h
    rw [LoopExpr.anyReadsIndex, Bool.or_eq_false_iff] at hindex
    rw [List.any_cons, LoopExpr.varying_of_evaluate hlane hindex.1, Bool.false_or]
    exact LoopExpr.varying_of_evaluateAll hothers hindex.2

end

end

/-! ## What an analysis finds -/

/-- The builtin that a name was found to stand for, as a look-up answers it. -/
def GuardedName.answer (g : GuardedName) : Option Value := some (.builtin g.identity g.builtin)

/-- Looking the names up in turn finds these builtins, and `t` is the session after that. -/
def Evaluator.FindsAll (ev : Evaluator) (env : EnvId) (names : List Symbol)
    (found : List GuardedName) (s t : Session) : Prop :=
  found.map (·.name) = names ∧
    names.mapM (ev.function? env) s = (.ok (found.map (·.answer)), t)

/-- The guard with further names in it, of each the first builtin that it was found to stand for. -/
def recordAll (guard found : List GuardedName) : List GuardedName := found.foldl recordName guard

namespace Evaluator

variable {ev : Evaluator} {env : EnvId} {names names' : List Symbol}
  {found found' : List GuardedName} {s t u : Session}

theorem findsAll_nil (s : Session) : ev.FindsAll env [] [] s s := ⟨rfl, rfl⟩

theorem findsAll_cons {g : GuardedName} (h : ev.function? env g.name s = (.ok g.answer, t))
    (hrest : ev.FindsAll env names found t u) :
    ev.FindsAll env (g.name :: names) (g :: found) s u := by
  obtain ⟨rfl, hrest⟩ := hrest
  refine ⟨rfl, ?_⟩
  rw [List.mapM_cons, SessionM.bind_run_ok h, SessionM.bind_run_ok hrest]
  rfl

theorem FindsAll.append (h : ev.FindsAll env names found s t)
    (h' : ev.FindsAll env names' found' t u) :
    ev.FindsAll env (names ++ names') (found ++ found') s u := by
  obtain ⟨rfl, hrun⟩ := h
  obtain ⟨rfl, hrun'⟩ := h'
  refine ⟨List.map_append, ?_⟩
  rw [List.mapM_append, SessionM.bind_run_ok hrun, SessionM.bind_run_ok hrun', List.map_append]
  rfl

end Evaluator

/-- What an analysis comes to, if it comes to anything: it looks the names up in turn, its guard
    records what it finds, and its result is right by `p` for any reading of the names as what they
    were found to stand for. -/
structure Records {α : Type} (ev : Evaluator) (env : EnvId) (names : List Symbol)
    (x : AnalysisM α) (p : (Symbol → Option LoopOp) → α → Prop) : Prop where
  found : ∀ {guard s a guard' t}, x guard s = (.ok (some (a, guard')), t) →
    ∃ found, ev.FindsAll env names found s t ∧ guard' = recordAll guard found ∧
      ∀ op, ReadBy op found → p op a

namespace Records

variable {α β : Type} {ev : Evaluator} {env : EnvId} {names names' : List Symbol}
  {p : (Symbol → Option LoopOp) → α → Prop} {q : (Symbol → Option LoopOp) → β → Prop}

theorem of_pure {a : α} (h : ∀ op, p op a) : Records ev env [] (pure a) p where
  found hrun := by
    cases hrun
    exact ⟨[], Evaluator.findsAll_nil _, rfl, fun op _ => h op⟩

theorem of_failure : Records ev env names failure p where
  found hrun := by cases hrun

theorem of_option {found : Option α} (h : ∀ a, found = some a → ∀ op, p op a) :
    Records ev env [] (StateT.lift (OptionT.mk (pure found))) p := by
  cases found with
  | none => exact of_failure
  | some a => exact of_pure (h a rfl)

theorem bind {x : AnalysisM α} {f : α → AnalysisM β} (hx : Records ev env names x p)
    (hf : ∀ a, Records ev env names' (f a) fun op b => p op a → q op b) :
    Records ev env (names ++ names') (x >>= f) q := by
  refine ⟨fun {guard s b guard'' t} hrun => ?_⟩
  obtain ⟨a, guard', u, hrunx, hrunf⟩ := AnalysisM.exists_of_bind_run hrun
  obtain ⟨found, hfound, rfl, hp⟩ := hx.found hrunx
  obtain ⟨found', hfound', rfl, hq⟩ := (hf a).found hrunf
  refine ⟨found ++ found', hfound.append hfound', List.foldl_append.symm, fun op hread => ?_⟩
  obtain ⟨hread, hread'⟩ := List.forall_mem_append.1 hread
  exact hq op hread' (hp op hread)

theorem ite {c : Prop} [Decidable c] {x y : AnalysisM α} (hpos : c → Records ev env names x p)
    (hneg : ¬ c → Records ev env names y p) : Records ev env names (if c then x else y) p := by
  split
  · exact hpos ‹_›
  · exact hneg ‹_›

theorem of_loopOp (name : Symbol) :
    Records ev env [name] (ev.loopOp env name) fun op o => op name = some o := by
  refine ⟨fun {guard s o guard' t} hrun => ?_⟩
  obtain ⟨identity, builtin, hanswer, hop, rfl⟩ := Evaluator.exists_of_loopOp_run hrun
  refine ⟨[⟨name, identity, builtin⟩], Evaluator.findsAll_cons hanswer (Evaluator.findsAll_nil t),
    rfl, fun op hread => ?_⟩
  exact (hread _ List.mem_cons_self).trans hop

end Records

section

variable {ev : Evaluator} {env : EnvId} {var accumulator : Symbol}

mutual

theorem records_loopExprOf (expr : Value) :
    Records ev env expr.calledNames (ev.loopExprOf env var accumulator expr)
      fun op e => Lowers op var accumulator expr e := by
  match expr with
  -- one case for each form that is read; all others are no increments
  | .symbol name =>
    refine .ite (fun hvar => ?_) fun hvar => .ite (fun _ => .of_failure) fun hname => ?_
    · subst hvar
      exact .of_pure fun _ => .index
    · simp only [Bool.or_eq_true, decide_eq_true_eq, not_or, Bool.not_eq_true] at hname
      exact .of_pure fun _ => .invariant hvar hname.1.1 hname.1.2 hname.2
  | .vector ⟨id, elements, attributes⟩ =>
    cases elements with
    | double xs =>
      unfold Evaluator.loopExprOf
      split
      · rename_i x hxs
        refine .ite (fun hempty => ?_) fun _ => .of_failure
        obtain rfl : xs = #[x] := Array.toList_inj.1 hxs
        obtain ⟨entries⟩ := attributes
        obtain rfl : entries = [] := List.isEmpty_iff.1 hempty
        exact .of_pure fun _ => .constant
      · exact .of_failure
    | _ => exact .of_failure
  | .call ⟨_, function, args⟩ =>
    cases function with
    | symbol name =>
      rw [Value.calledNames_call]
      refine .ite (fun hplain => ?_) fun _ => .of_failure
      refine (Records.of_loopOp name).bind fun operation => ?_
      rw [← List.append_nil (Value.argsCalledNames args)]
      refine (records_loopExprsOf args).bind fun operands => ?_
      exact .of_option fun e he op hargs hop => .apply hplain hop hargs he
    | _ => exact .of_failure
  | .null | .list _ | .dots _ | .closure _ | .builtin _ _ | .promise _ | .environment _ =>
    exact .of_failure

theorem records_loopExprsOf (args : ArgList) :
    Records ev env (Value.argsCalledNames args) (ev.loopExprsOf env var accumulator args)
      fun op operands => LowersAll op var accumulator args operands := by
  match args with
  | [] => exact .of_pure fun _ => .nil
  | ⟨_, value⟩ :: rest =>
    rw [Value.argsCalledNames, ← List.append_nil (Value.argsCalledNames rest)]
    refine (records_loopExprOf value).bind fun operand => ?_
    refine (records_loopExprsOf rest).bind fun operands => ?_
    exact .of_pure fun op hargs hoperand => .cons hoperand hargs

end

end

/-! ## What the guard records -/

section

variable {env : EnvId} {guard found : List GuardedName} {s t : Session}

theorem mem_recordAll {g : GuardedName} (h : g ∈ recordAll guard found) :
    g ∈ guard ∨ g ∈ found := by
  induction found generalizing guard with
  | nil => exact .inl h
  | cons first rest ih =>
    rcases ih h with hg | hg
    · exact (mem_recordName hg).imp_right fun he => List.mem_cons.2 (.inl he)
    · exact .inr (List.mem_cons_of_mem _ hg)

theorem subset_recordAll (guard found : List GuardedName) : guard ⊆ recordAll guard found := by
  induction found generalizing guard with
  | nil => exact List.Subset.refl _
  | cons first rest ih => exact List.Subset.trans (subset_recordName guard first) (ih _)

/-- The guard has an entry for every name that was looked up. -/
theorem exists_mem_recordAll {g : GuardedName} (h : g ∈ found) (guard : List GuardedName) :
    ∃ g' ∈ recordAll guard found, g'.name = g.name := by
  induction found generalizing guard with
  | nil => cases h
  | cons first rest ih =>
    rcases List.mem_cons.1 h with rfl | h
    · obtain ⟨g', hg', hname⟩ := exists_mem_recordName guard g
      exact ⟨g', subset_recordAll _ rest hg', hname⟩
    · exact ih h _

/-- No name has two entries in the guard. -/
theorem nodup_recordAll (h : (guard.map (·.name)).Nodup) :
    ((recordAll guard found).map (·.name)).Nodup := by
  induction found generalizing guard with
  | nil => exact h
  | cons first rest ih =>
    -- an entry is added only under a name that has none
    refine ih ?_
    unfold recordName
    split
    · exact h
    · rename_i hnew
      have hnew : first.name ∉ guard.map (·.name) := fun hmem => by
        obtain ⟨g, hg, hname⟩ := List.mem_map.1 hmem
        exact hnew (List.any_eq_true.2 ⟨g, hg, by simpa using hname⟩)
      rw [List.map_append, List.map_singleton]
      exact List.nodup_append.2 ⟨h, List.nodup_singleton _, by simpa using hnew⟩

/-- The guard records all that was found unless a name was found to stand for two builtins. -/
theorem subset_recordAll_iff : found ⊆ recordAll [] found ↔
    ∀ g ∈ found, ∀ g' ∈ found, g.name = g'.name → g = g' := by
  constructor
  · intro hrecorded g hg g' hg' hname
    have hnames : ((recordAll [] found).map (·.name)).Nodup := nodup_recordAll List.nodup_nil
    exact List.inj_on_of_nodup_map hnames (hrecorded hg) (hrecorded hg') hname
  · intro hconsistent g hg
    obtain ⟨g', hg', hname⟩ := exists_mem_recordAll hg []
    have hfound : g' ∈ found := (mem_recordAll hg').resolve_left (by simp)
    exact hconsistent g' hfound g hg hname ▸ hg'

/-- In one session, a name stands for one builtin. -/
theorem Session.Fits.eq_of_name (h : s.Fits env found) :
    ∀ g ∈ found, ∀ g' ∈ found, g.name = g'.name → g = g' := by
  rintro ⟨name, _, _⟩ hg ⟨_, _, _⟩ hg' rfl
  have hsame := h _ hg
  rw [h _ hg'] at hsame
  cases hsame
  rfl

namespace Evaluator

variable {fuel : Nat} {names : List Symbol}

/-- Look-ups that forced no promise left the session as it was, and found what the names stand for
    in it. -/
theorem FindsAll.keepsPromises (h : (evaluator fuel).FindsAll env names found s t) :
    s.KeepsPromises t ∧ (t.KeepsPromises s → t = s ∧ s.Fits env found) := by
  obtain ⟨rfl, hrun⟩ := h
  induction found generalizing s with
  | nil =>
    cases hrun
    exact ⟨.of_promises rfl, fun _ => ⟨rfl, fun _ hg => nomatch hg⟩⟩
  | cons g rest ih =>
    rw [List.map_cons, List.mapM_cons] at hrun
    rcases hlook : (evaluator fuel).function? env g.name s with ⟨_ | answer, u⟩
    · rw [SessionM.bind_run_error hlook] at hrun
      cases hrun
    rw [SessionM.bind_run_ok hlook] at hrun
    rcases hlooks : (rest.map (·.name)).mapM ((evaluator fuel).function? env) u with
      ⟨_ | answers, u'⟩
    · rw [SessionM.bind_run_error hlooks] at hrun
      cases hrun
    rw [SessionM.bind_run_ok hlooks] at hrun
    cases hrun
    obtain ⟨hkeeps, hback⟩ := ih hlooks
    have hfirst := keepsPromises_of_function? hlook
    -- if no promise was forced by all the look-ups, none was by the first or by the others
    refine ⟨hfirst.trans hkeeps, fun h => ?_⟩
    obtain ⟨hresolve, rfl⟩ := resolve?_of_run hlook (hkeeps.trans h)
    obtain ⟨rfl, hrest⟩ := hback h
    exact ⟨rfl, List.forall_mem_cons.2 ⟨hresolve, hrest⟩⟩

end Evaluator

end

/-! ## One iteration -/

/-- As seen from `env`, the names of the guard stand for the builtins that it records, the loop
    variable is `x`, and the variables that the loop does not assign are what is given for them. -/
structure Session.InIteration (s : Session) (env : EnvId) (guard : List GuardedName) (var : Symbol)
    (given : List (Symbol × DoubleVector)) (x : Float) : Prop where
  fits : s.Fits env guard
  element : s.numbers? env var = some ⟨#[x], .empty⟩
  given : ∀ entry ∈ given, s.numbers? env entry.1 = some entry.2

/-- What the guard reads an increment as can be evaluated in an iteration. -/
theorem Session.InIteration.holds {s : Session} {env : EnvId} {var : Symbol} {x : Float}
    {loop : Accumulation} {l : LoopSetting} (h : s.InIteration env loop.guard var l.given x)
    (hbase : s.heap.contains s.namespaces.baseEnv = true) (henv : l.env = env) (hvar : l.var = var)
    (hop : l.op = loop.op) : l.Holds s x := by
  obtain rfl := henv
  obtain rfl := hvar
  refine ⟨s.contains_of_numbers? h.element, hbase, fun name _ op hname => ?_, h.element,
    fun entry hentry _ _ => h.given entry hentry⟩
  rw [hop] at hname
  obtain ⟨g, hfind, hbuiltin⟩ := Option.bind_eq_some_iff.1 hname
  obtain rfl : g.name = name := by simpa using List.find?_some hfind
  exact ⟨g.identity, g.builtin, h.fits g (List.mem_of_find?_eq_some hfind), hbuiltin⟩

/-- What a vector is that has the numbers of a lane in one iteration. -/
theorem DoubleVector.Shows.spec {v : DoubleVector} {lane : Lane} {n i : Nat} (h : v.Shows lane i)
    (hfits : lane.Fits n) (hi : i < n) :
    (lane.varying = true → ∃ y, lane.values[i]? = some y ∧ v.values = #[y]) ∧
      (lane.varying = false → v.values = lane.values) ∧
      (lane.plain = true → lane.extents = none → v.attributes = .empty) ∧
      v.attributes.extents? = lane.extents := by
  have hvalues : v.values = (lane.inIteration i).values := congrArg Lane.values h.lane
  refine ⟨fun hvarying => ?_, fun hfixed => ?_, fun hplain hextents => ?_, ?_⟩
  · have hlt : i < lane.values.size := (hfits hvarying).1 ▸ hi
    refine ⟨lane.values[i], Array.getElem?_eq_getElem hlt, hvalues.trans ?_⟩
    simp [Lane.inIteration, hvarying, hlt]
  · rw [hvalues, Lane.inIteration_of_not_varying hfixed]
  · exact h.attributes_eq (by simp [Lane.carriesAttributes, hplain, hextents])
  · have hextents : v.attributes.extents? = (lane.inIteration i).extents :=
      congrArg Lane.extents h.lane
    rw [hextents]
    unfold Lane.inIteration
    split <;> rfl

/-- An analysis reads an increment as a loop expression.  It looks the functions up that the
    increment calls, and its guard records all that it finds unless a name was found to stand for
    two builtins, which only happens if a promise was forced.

    The lane of the expression for a sequence has a number for each iteration if it varies, and it
    does not vary if the expression does not read the loop variable.  If the guard records all that
    was found, then in every iteration the increment evaluates to the number that the lane has
    there, or to the whole lane if it does not vary, and leaves the session as it is; it has no
    attributes if the lane has none, and the extents of the lane. -/
theorem increment_evaluates {fuel : Nat} {env : EnvId} {var accumulator : Symbol}
    {increment : Value} {e : LoopExpr} {guard : List GuardedName} {s₀ s₁ : Session}
    (hplain : (Arg.untagged increment).isPlain = true)
    (hread : (evaluator fuel).loopExprOf env var accumulator increment [] s₀ =
      (.ok (some (e, guard)), s₁)) :
    ∃ found, (evaluator fuel).FindsAll env increment.calledNames found s₀ s₁ ∧
      guard = recordAll [] found ∧
      (found ⊆ guard ↔ ∀ g ∈ found, ∀ g' ∈ found, g.name = g'.name → g = g') ∧
      (s₁.KeepsPromises s₀ → s₁ = s₀ ∧ s₀.Fits env found ∧ found ⊆ guard) ∧
      ∀ (kernels : List Kernel) (index : Array Float) (given : List (Symbol × DoubleVector))
        (lane : Lane), (∀ kernel ∈ kernels, kernel.IsOwn) → 0 < index.size →
        e.evaluate index given (.ofKernels kernels) = .ok lane →
        (lane.varying = true → lane.values.size = index.size) ∧
        (e.readsIndex = false → lane.varying = false) ∧
        (found ⊆ guard → ∀ (options : Options) (table : KernelTable) (s : Session) (env' : EnvId)
          (i : Nat) (x : Float), s.Reachable options table → index[i]? = some x →
          s.InIteration env' guard var given x →
          ∃ v identity count, Evaluates s (s.counting count) env' increment
              (DoubleVector.toValue v identity) ∧
            (lane.varying = true → ∃ y, lane.values[i]? = some y ∧ v.values = #[y]) ∧
            (lane.varying = false → v.values = lane.values) ∧
            (lane.plain = true → lane.extents = none → v.attributes = .empty) ∧
            v.attributes.extents? = lane.extents) := by
  obtain ⟨found, hfound, rfl, hlowers⟩ := (records_loopExprOf increment).found hread
  refine ⟨found, hfound, rfl, subset_recordAll_iff, fun hback => ?_,
    fun kernels index given lane hown hpos hlane => ?_⟩
  · obtain ⟨rfl, hfits⟩ := hfound.keepsPromises.2 hback
    exact ⟨rfl, hfits, subset_recordAll_iff.2 hfits.eq_of_name⟩
  have hfits := LoopExpr.fits_of_evaluate hpos hlane
  refine ⟨fun hvarying => (hfits hvarying).1, LoopExpr.varying_of_evaluate hlane,
    fun hrecorded options table s env' i x hreachable hi hs => ?_⟩
  obtain ⟨-, hnamespaces, hbase⟩ := hreachable.rooted
  rw [← hnamespaces] at hbase
  obtain ⟨hlt, -⟩ := Array.getElem?_eq_some_iff.1 hi
  obtain ⟨-, hmissing, hellipsis⟩ := Arg.isPlain_iff.1 hplain
  let loop : Accumulation := ⟨accumulator, e, e.invariants, recordAll [] found⟩
  let l : LoopSetting := ⟨env', var, accumulator, loop.op, increment.calledNames, index, given,
    .ofKernels kernels⟩
  -- the increment is what its guard makes of it, since the guard records all that it was read by
  have hguard : ReadBy loop.op loop.guard := Accumulation.readBy_op hs.fits
  have hincrement : Lowers loop.op var accumulator increment e :=
    hlowers loop.op fun g hg => hguard g (hrecorded hg)
  have hloop : s.InIteration env' loop.guard var l.given x := hs
  have hholds : l.Holds s x := hloop.holds hbase rfl rfl rfl
  obtain ⟨v, identity, count, hshows, heval⟩ := hincrement.evaluates (l := l) hholds
    (KernelTable.isOwn_ofKernels hown) hi (List.Subset.refl _) hmissing hellipsis hlane
    s.identities
  exact ⟨v, identity, count, heval, hshows.spec hfits hlt⟩

/-- Where `f` is another name of `sqrt`, the increment `f(i) + k` is read while `k` is a number, and
    evaluated in an iteration in which `i` is the second element of the sequence. -/
theorem increment_evaluates_sqrt :
    let fresh := Session.initial {} (.ofKernels [.sumMean])
    let env := fresh.globalEnv
    let number (x : Float) (id : Nat) : Binding :=
      ⟨DoubleVector.toValue ⟨#[x], .empty⟩ ⟨id⟩, false⟩
    let s₀ := (fresh.bound env ⟨"k"⟩ (number 10 100)).bound env ⟨"f"⟩
      ⟨.builtin ⟨101⟩ (.eager (.math .sqrt)), false⟩
    let s := s₀.bound env ⟨"i"⟩ (number 9 102)
    let call (name : String) (args : List Value) : Value :=
      .call ⟨⟨103⟩, .symbol ⟨name⟩, args.map Arg.untagged⟩
    let increment := call "+" [call "f" [.symbol ⟨"i"⟩], .symbol ⟨"k"⟩]
    (∃ e guard, (evaluator 0).loopExprOf env ⟨"i"⟩ ⟨"total"⟩ increment [] s₀ =
      (.ok (some (e, guard)), s₀)) ∧
    ∃ identity count, Evaluates s (s.counting count) env increment
      (DoubleVector.toValue ⟨#[Float.sqrt 9 + 10], .empty⟩ identity) := by
  intro fresh env number s₀ s call increment
  have hread : (evaluator 0).loopExprOf env ⟨"i"⟩ ⟨"total"⟩ increment [] s₀ =
    (.ok (some (_, _)), s₀) := rfl
  refine ⟨⟨_, _, hread⟩, ?_⟩
  obtain ⟨found, -, -, -, hback, hlanes⟩ := increment_evaluates rfl hread
  obtain ⟨-, -, hrecorded⟩ := hback (.of_promises rfl)
  have hreachable : s.Reachable {} (.ofKernels [.sumMean]) :=
    .host (.host (.host .initial (.move (.write _ _ rfl))) (.move (.write _ _ rfl)))
      (.move (.write _ _ rfl))
  obtain ⟨-, -, hiterations⟩ := hlanes [.sumMean] #[4, 9] [(⟨"k"⟩, ⟨#[10], .empty⟩)] _
    (fun _ h => .inl (List.mem_singleton.1 h)) (by decide) rfl
  obtain ⟨⟨values, attributes⟩, identity, count, heval, hvarying, -, hattributes, -⟩ :=
    hiterations hrecorded _ _ s env 1 9 hreachable rfl
      ⟨List.forall_mem_cons.2 ⟨rfl, List.forall_mem_singleton.2 rfl⟩, rfl,
        List.forall_mem_singleton.2 rfl⟩
  obtain ⟨y, hy, rfl⟩ := hvarying rfl
  have hvalue : (BinaryOp.add.map ((UnaryOp.math .sqrt).map #[4, 9]) #[10])[1]? =
      some (Float.sqrt 9 + 10) := by
    simp [BinaryOp.map, UnaryOp.map, zipRecycled, recycledSize, recycled, BinaryOp.apply,
      UnaryOp.apply, MathFunction.apply]
  obtain rfl : y = Float.sqrt 9 + 10 := Option.some.inj (hy.symm.trans hvalue)
  obtain rfl := hattributes rfl rfl
  exact ⟨identity, count, heval⟩

end CallByNeed
