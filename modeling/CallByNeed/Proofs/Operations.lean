import CallByNeed.Proofs.Lanes
import CallByNeed.Proofs.Run

/-!
# Builtins on plain vectors

What a builtin does with vectors that have no explicit class: no method stands
in for an operator, and the answer is a new vector.  The kernels of a session
compute what the builtins compute (`KernelTable.IsOwn`).
-/

namespace CallByNeed

/-! ## Kernels -/

def Kernel.IsOwn (kernel : Kernel) : Prop :=
  kernel = sumMean ∨ kernel = rowMean ∨ kernel = colSum

/-- Every kernel of the table is one of those that there are, entered under one of its own
    computations. -/
def KernelTable.IsOwn (table : KernelTable) : Prop :=
  ∀ name kernel, table.get? name = some kernel → kernel.IsOwn ∧ name ∈ kernel.operations

namespace KernelTable

theorem isOwn_register {table : KernelTable} {kernel : Kernel} (htable : table.IsOwn)
    (hkernel : kernel.IsOwn) : (table.register kernel).IsOwn := by
  have hentered (operations : List String) (hsub : operations ⊆ kernel.operations)
      (table : KernelTable) (htable : table.IsOwn) :
      (operations.foldl (fun table name => (⟨Assoc.put name kernel table.entries⟩ : KernelTable))
        table).IsOwn := by
    induction operations generalizing table with
    | nil => exact htable
    | cons operation rest ih =>
      refine ih (List.subset_of_cons_subset hsub) _ fun name found hfound => ?_
      by_cases hname : name = operation
      · subst hname
        have hself : (Assoc.put name kernel table.entries).lookup name = some kernel :=
          Assoc.lookup_put_self _ _ _
        obtain rfl : kernel = found := Option.some.inj (hself.symm.trans hfound)
        exact ⟨hkernel, hsub List.mem_cons_self⟩
      · exact htable name found ((Assoc.lookup_put_of_ne _ _ hname).symm.trans hfound)
  exact hentered kernel.operations (List.Subset.refl _) table htable

theorem isOwn_ofKernels {kernels : List Kernel} (h : ∀ kernel ∈ kernels, kernel.IsOwn) :
    (ofKernels kernels).IsOwn := by
  have hregistered (kernels : List Kernel) (h : ∀ kernel ∈ kernels, kernel.IsOwn)
      (table : KernelTable) (htable : table.IsOwn) : (kernels.foldl register table).IsOwn := by
    induction kernels generalizing table with
    | nil => exact htable
    | cons kernel rest ih =>
      obtain ⟨hkernel, hrest⟩ := List.forall_mem_cons.1 h
      exact ih hrest _ (isOwn_register htable hkernel)
  exact hregistered kernels h empty fun _ _ hfound => nomatch hfound

variable {table : KernelTable} {kernel : Kernel}

theorem IsOwn.compute_sum (h : table.IsOwn) (hkernel : table.get? "sum" = some kernel)
    (input : KernelOperand) : kernel.compute "sum" input = some #[sum input.values] := by
  -- of the three kernels only the first one is entered under this name
  obtain ⟨rfl | rfl | rfl, hmem⟩ := h _ _ hkernel
  · rfl
  · simp [Kernel.rowMean] at hmem
  · simp [Kernel.colSum] at hmem

theorem IsOwn.compute_mean (h : table.IsOwn) (hkernel : table.get? "mean" = some kernel)
    (input : KernelOperand) : kernel.compute "mean" input = some #[mean input.values] := by
  obtain ⟨rfl | rfl | rfl, hmem⟩ := h _ _ hkernel
  · rfl
  · simp [Kernel.rowMean] at hmem
  · simp [Kernel.colSum] at hmem

/-- The kernel for a margin computes the margin, where the operand is a matrix. -/
theorem IsOwn.compute_margin (h : table.IsOwn) {op : Margin}
    (hkernel : table.get? op.name = some kernel) (input : KernelOperand) :
    kernel.compute op.name input = input.matrix?.map (Builtin.marginOf op) := by
  cases op <;> obtain ⟨rfl | rfl | rfl, hmem⟩ := h _ _ hkernel
  · simp [Kernel.sumMean, Margin.name] at hmem
  · rfl
  · simp [Kernel.colSum, Margin.name] at hmem
  · simp [Kernel.sumMean, Margin.name] at hmem
  · simp [Kernel.rowMean, Margin.name] at hmem
  · rfl

/-- The kernel of the accumulating computation adds the increments one after the other. -/
theorem IsOwn.accumulate_ok (h : table.IsOwn) {start total : Float} {increments : Array Float}
    (haccumulate : table.accumulate start increments = .ok total) :
    total = sumFrom start increments := by
  unfold accumulate at haccumulate
  split at haccumulate
  · cases haccumulate
  rename_i kernel hkernel
  obtain ⟨rfl | rfl | rfl, hmem⟩ := h _ _ hkernel
  · cases haccumulate
    rfl
  · simp [Kernel.rowMean, accumulatingComputation] at hmem
  · simp [Kernel.colSum, accumulatingComputation] at hmem

end KernelTable

/-! ## Answers -/

def DoubleVector.toValue (v : DoubleVector) (identity : Identity) : Value :=
  .vector ⟨identity, .double v.values, v.attributes⟩

def DoubleVector.answer (v : DoubleVector) : Answer := .fresh (.double v.values) v.attributes

theorem Value.eq_of_unclassedDoubles? {value : Value} {v : DoubleVector}
    (h : value.unclassedDoubles? = some v) :
    (∃ identity, value = v.toValue identity) ∧ v.attributes.contains .classAttribute = false := by
  unfold unclassedDoubles? at h
  split at h
  · split at h
    · cases h
    · rename_i hclass
      cases h
      exact ⟨⟨_, rfl⟩, by simpa using hclass⟩
  · cases h

/-- A lane of numbers that shows no attributes has none. -/
theorem DoubleVector.attributes_eq_empty {v : DoubleVector}
    (h : (Lane.ofVector v).carriesAttributes = false) : v.attributes = .empty := by
  obtain ⟨values, ⟨entries⟩⟩ := v
  simp only [Lane.carriesAttributes, Lane.ofVector, Bool.or_eq_false_iff] at h
  obtain ⟨hplain, hextents⟩ := h
  simp only [hextents, Bool.false_eq_true, if_false, Bool.not_eq_false', beq_iff_eq] at hplain
  rw [List.length_eq_zero_iff.1 hplain]
  rfl

namespace Builtin

variable {v w : DoubleVector} {a b : Identity}

theorem arithmetic_sub_toValue :
    arithmetic .sub [.untagged (v.toValue a)] =
      .ok (DoubleVector.answer ⟨UnaryOp.neg.map v.values, v.attributes⟩) := rfl

theorem arithmetic_add_toValue :
    arithmetic .add [.untagged (v.toValue a)] = .ok v.answer := rfl

/-- Two vectors of which only the first has attributes, which the result may keep. -/
theorem arithmetic_toValue (op : BinaryOp) (hw : w.attributes = .empty) :
    arithmetic op [.untagged (v.toValue a), .untagged (w.toValue b)] =
      .ok (DoubleVector.answer ⟨op.map v.values w.values,
        carriedAttributes (v.toValue a) (op.map v.values w.values).size⟩) := by
  have hcarried (size : Nat) : carriedAttributes (w.toValue b) size = .empty := by
    change (if _ then w.attributes else AttributeList.empty) = AttributeList.empty
    rw [hw, ite_self]
  change Except.ok (Answer.fresh _ (AttributeList.merged _ (carriedAttributes (w.toValue b) _))) = _
  rw [hcarried]
  rfl

theorem reduce_sum_toValue :
    reduce .sum [.untagged (v.toValue a)] =
      .ok (DoubleVector.answer ⟨#[sum v.values], .empty⟩) := by
  change Except.ok (Answer.fresh (.double #[sum [v.values.toList].flatten.toArray]) .empty) = _
  simp [DoubleVector.answer]

theorem reduce_mean_toValue :
    reduce .mean [.untagged (v.toValue a)] =
      .ok (DoubleVector.answer ⟨#[mean v.values], .empty⟩) := rfl

theorem margin_toValue {op : Margin} {values : Array Float}
    (h : (v.attributes.extents?.bind (Matrix.ofCells? v.values)).map (marginOf op) = some values) :
    margin op [.untagged (v.toValue a)] = .ok (DoubleVector.answer ⟨values, .empty⟩) := by
  obtain ⟨m, hm, rfl⟩ := Option.map_eq_some_iff.1 h
  have harg : matrixArg op [.untagged (v.toValue a)] = .ok m := by
    simp [matrixArg, DoubleVector.toValue, Arg.untagged, hm]
  simp only [margin, harg]
  rfl

end Builtin

/-! ## Eager builtins -/

theorem SessionM.deliver_run (v : DoubleVector) (s : Session) :
    deliver (.ok v.answer) s =
      (.ok (v.toValue ⟨s.identities⟩), s.counting (s.identities + 1)) := rfl

namespace Evaluator

variable (ev : Evaluator) {s : Session} {env : EnvId}

theorem methodsTable_run (h : s.heap.contains env = true) :
    ∃ table, SessionM.methodsTable env s = (.ok table, s) := by
  obtain ⟨frame, hframe⟩ := Option.isSome_iff_exists.1 h
  have hlocal (name : Symbol) : s.heap.getLocal env name =
      .ok ((frame.get? name).map (·.value)) := by
    unfold Heap.getLocal Heap.frame
    rw [hframe]
    rfl
  have hask : ∃ table, s.heap.methodsTable env = .ok table := by
    unfold Heap.methodsTable
    rw [hlocal]
    generalize (frame.get? methodsTableName).map (·.value) = found
    rcases found with _ | value
    · exact ⟨none, rfl⟩
    · cases value with
      | environment id => exact ⟨some id, rfl⟩
      | _ => exact ⟨none, rfl⟩
  obtain ⟨table, htable⟩ := hask
  exact ⟨table, SessionM.askHeap_run_ok htable⟩

/-- No method stands in for an operator if no operand has an explicit class. -/
theorem dispatchOperator_run {op : String} {args : ArgList}
    (hbase : s.heap.contains s.namespaces.baseEnv = true)
    (hargs : ∀ arg ∈ args, arg.value.hasClassAttribute = false) :
    ev.dispatchOperator op env args s = (.ok none, s) := by
  have hnames : operatorMethodNames op args = [] := by
    unfold operatorMethodNames
    refine List.flatMap_eq_nil_iff.2 fun arg harg => ?_
    -- an operand without explicit class names no method
    rw [if_neg (by simp [hargs arg harg])]
  obtain ⟨table, htable⟩ := methodsTable_run hbase
  rw [dispatchOperator, SessionM.get_bind_run, SessionM.bind_run_ok htable, hnames]
  rfl

theorem runArithmetic_run {op : BinaryOp} {args : ArgList} {v : DoubleVector}
    (hbase : s.heap.contains s.namespaces.baseEnv = true)
    (hargs : ∀ arg ∈ args, arg.value.hasClassAttribute = false)
    (h : Builtin.arithmetic op args = .ok v.answer) :
    ev.runEager (.arithmetic op) args env s =
      (.ok (v.toValue ⟨s.identities⟩), s.counting (s.identities + 1)) := by
  change ev.runArithmetic op args env s = _
  rw [runArithmetic, SessionM.bind_run_ok (ev.dispatchOperator_run hbase hargs), h]
  rfl

end Evaluator

/-! ## Vectors beside lanes -/

/-- Vectors that are shared under some identities. -/
abbrev SharedVectors := List (DoubleVector × Identity)

def SharedVectors.args (vs : SharedVectors) : ArgList :=
  vs.map fun v => .untagged (v.1.toValue v.2)

/-- In iteration `i`, the lane has the numbers of the vector, which has no explicit class. -/
structure DoubleVector.Shows (v : DoubleVector) (lane : Lane) (i : Nat) : Prop where
  lane : Lane.ofVector v = lane.inIteration i
  unclassed : v.attributes.contains .classAttribute = false

/-- Several lanes have the numbers of as many vectors. -/
def SharedVectors.Show : SharedVectors → List Lane → Nat → Prop
  | [], [], _ => True
  | v :: vs, lane :: lanes, i => v.1.Shows lane i ∧ SharedVectors.Show vs lanes i
  | _, _, _ => False

namespace SharedVectors

variable {vs : SharedVectors} {lanes : List Lane} {i : Nat}

theorem Show.unclassed (h : vs.Show lanes i) :
    ∀ arg ∈ vs.args, arg.value.hasClassAttribute = false := by
  induction vs generalizing lanes with
  | nil => exact fun _ hmem => nomatch hmem
  | cons v vs ih =>
    cases lanes with
    | nil => exact h.elim
    | cons lane lanes => exact List.forall_mem_cons.2 ⟨h.1.unclassed, ih h.2⟩

theorem Show.eq_singleton {lane : Lane} (h : vs.Show [lane] i) :
    ∃ v a, vs = [(v, a)] ∧ v.Shows lane i := by
  match vs, h with
  | [(v, a)], h => exact ⟨v, a, rfl, h.1⟩

theorem Show.eq_pair {x y : Lane} (h : vs.Show [x, y] i) :
    ∃ v a w b, vs = [(v, a), (w, b)] ∧ v.Shows x i ∧ w.Shows y i := by
  match vs, h with
  | [(v, a), (w, b)], h => exact ⟨v, a, w, b, rfl, h.1, h.2.1⟩

end SharedVectors

theorem DoubleVector.Shows.attributes_eq {v : DoubleVector} {lane : Lane} {i : Nat}
    (h : v.Shows lane i) (hplain : lane.carriesAttributes = false) : v.attributes = .empty := by
  refine v.attributes_eq_empty ?_
  rw [h.lane, Lane.carriesAttributes_inIteration, hplain]

/-! ## One operation -/

/-- In iteration `i`, carrying out the builtin on vectors that have the numbers of the lanes gives a
    new vector with the numbers of the result. -/
def EagerBuiltin.Carries (builtin : EagerBuiltin) (lanes : List Lane) (result : Lane) (i : Nat) :
    Prop :=
  ∀ vs : SharedVectors, vs.Show lanes i → ∃ v : DoubleVector, v.Shows result i ∧
    ∀ (ev : Evaluator) (env : EnvId) (s : Session),
      s.heap.contains s.namespaces.baseEnv = true →
        ev.runEager builtin vs.args env s =
          (.ok (v.toValue ⟨s.identities⟩), s.counting (s.identities + 1))

namespace EagerBuiltin

variable {x y result : Lane} {i : Nat}

theorem carries_math (f : MathFunction)
    (h : Lane.map (.unary (.math f)) [x.inIteration i] = .ok (result.inIteration i)) :
    (math f).Carries [x] result i := by
  intro vs hvs
  obtain ⟨v, a, rfl, hv⟩ := hvs.eq_singleton
  rw [← hv.lane] at h
  exact ⟨⟨(UnaryOp.math f).map v.values, v.attributes⟩, ⟨Except.ok.inj h, hv.unclassed⟩,
    fun _ _ _ _ => rfl⟩

theorem carries_neg
    (h : Lane.map (.unary .neg) [x.inIteration i] = .ok (result.inIteration i)) :
    (arithmetic .sub).Carries [x] result i := by
  intro vs hvs
  have hclass := hvs.unclassed
  obtain ⟨v, a, rfl, hv⟩ := hvs.eq_singleton
  rw [← hv.lane] at h
  exact ⟨⟨UnaryOp.neg.map v.values, v.attributes⟩, ⟨Except.ok.inj h, hv.unclassed⟩,
    fun ev _ _ hbase => ev.runArithmetic_run hbase hclass Builtin.arithmetic_sub_toValue⟩

theorem carries_plus (x : Lane) (i : Nat) : (arithmetic .add).Carries [x] x i := by
  intro vs hvs
  have hclass := hvs.unclassed
  obtain ⟨v, a, rfl, hv⟩ := hvs.eq_singleton
  exact ⟨v, hv, fun ev _ _ hbase =>
    ev.runArithmetic_run hbase hclass Builtin.arithmetic_add_toValue⟩

theorem carries_binary (op : BinaryOp) (hx : x.carriesAttributes = false)
    (hy : y.carriesAttributes = false)
    (h : Lane.map (.binary op) [x.inIteration i, y.inIteration i] = .ok (result.inIteration i)) :
    (arithmetic op).Carries [x, y] result i := by
  intro vs hvs
  have hclass := hvs.unclassed
  obtain ⟨v, a, w, b, rfl, hv, hw⟩ := hvs.eq_pair
  -- attributes that would show have made the fused run give up, so there are none to carry
  have hcarried (size : Nat) : Builtin.carriedAttributes (v.toValue a) size = .empty := by
    change (if _ then v.attributes else AttributeList.empty) = AttributeList.empty
    rw [hv.attributes_eq hx, ite_self]
  have hrun := Builtin.arithmetic_toValue (v := v) (a := a) (b := b) op (hw.attributes_eq hy)
  rw [hcarried] at hrun
  refine ⟨⟨op.map v.values w.values, .empty⟩, ⟨?_, rfl⟩,
    fun ev _ _ hbase => ev.runArithmetic_run hbase hclass hrun⟩
  rw [← hv.lane, ← hw.lane] at h
  exact Except.ok.inj h

/-- A computation without attributes in its result, on a lane that is the same in every
    iteration. -/
theorem carries_computation {builtin : EagerBuiltin} {values : Array Float}
    (hx : x.varying = false)
    (hrun : ∀ (v : DoubleVector) (a : Identity), Lane.ofVector v = x →
      ∀ (ev : Evaluator) (env : EnvId), ev.runEager builtin [.untagged (v.toValue a)] env =
        SessionM.deliver (.ok (DoubleVector.answer ⟨values, .empty⟩))) :
    builtin.Carries [x] (.constant values) i := by
  intro vs hvs
  obtain ⟨v, a, rfl, hv⟩ := hvs.eq_singleton
  refine ⟨⟨values, .empty⟩, ⟨rfl, rfl⟩, fun ev env s _ => ?_⟩
  have hrun := hrun v a (hv.lane.trans (Lane.inIteration_of_not_varying hx i)) ev env
  rw [SharedVectors.args, List.map_singleton, hrun, SessionM.deliver_run]

end EagerBuiltin

/-! ## Builtins that a loop may replace -/

namespace Builtin

variable {b : Builtin}

theorem eq_of_loopOp?_unary {op : UnaryOp} (h : b.loopOp? = some (.unary op)) :
    ∃ f, op = .math f ∧ b = .eager (.math f) := by
  unfold loopOp? at h
  split at h <;> cases h
  exact ⟨_, rfl, rfl⟩

theorem eq_of_loopOp?_binary {op : BinaryOp} (h : b.loopOp? = some (.binary op)) :
    b = .eager (.arithmetic op) := by
  unfold loopOp? at h
  split at h <;> cases h
  rfl

theorem eq_of_loopOp?_computation {name : String} (h : b.loopOp? = some (.computation name)) :
    (∃ op : Reduction, name = op.name ∧ b = .eager (.reduce op)) ∨
      ∃ op : Margin, name = op.name ∧ b = .eager (.margin op) := by
  unfold loopOp? at h
  split at h <;> cases h
  · exact .inl ⟨_, rfl, rfl⟩
  · exact .inr ⟨_, rfl, rfl⟩

theorem eq_of_loopOp?_assign (h : b.loopOp? = some .assign) : b = .special .assign := by
  unfold loopOp? at h
  split at h <;> cases h
  rfl

theorem eq_of_loopOp?_block (h : b.loopOp? = some .block) : b = .special .block := by
  unfold loopOp? at h
  split at h <;> cases h
  rfl

variable {operands : List LoopExpr} {e : LoopExpr} {index : Array Float}
  {given : List (Symbol × DoubleVector)} {kernels : KernelTable} {lane : Lane} {i : Nat}

/-- What a kernel computes in the place of a builtin, the builtin computes too. -/
theorem carries_of_computation {name : String} (hown : kernels.IsOwn)
    (hop : b.loopOp? = some (.computation name)) {x : Lane}
    (h : x.compute kernels name = .ok lane) :
    ∃ builtin, b = .eager builtin ∧ builtin.Carries [x] lane i := by
  obtain ⟨hx, kernel, values, hkernel, hvalues, rfl⟩ := Lane.compute_ok h
  -- kernels that a loop may call compute a reduction or a margin
  rcases eq_of_loopOp?_computation hop with ⟨op, rfl, rfl⟩ | ⟨op, rfl, rfl⟩
  · refine ⟨_, rfl, EagerBuiltin.carries_computation hx fun v a hv ev env => ?_⟩
    subst hv
    cases op with
    | sum =>
      have hsum := hown.compute_sum hkernel ⟨v.values, v.attributes.extents?⟩
      cases hsum.symm.trans hvalues
      exact congrArg SessionM.deliver (reduce_sum_toValue (a := a))
    | mean =>
      have hmean := hown.compute_mean hkernel ⟨v.values, v.attributes.extents?⟩
      cases hmean.symm.trans hvalues
      exact congrArg SessionM.deliver (reduce_mean_toValue (a := a))
  · refine ⟨_, rfl, EagerBuiltin.carries_computation hx fun v a hv ev env => ?_⟩
    subst hv
    have hmargin := hown.compute_margin hkernel ⟨v.values, v.attributes.extents?⟩
    exact congrArg SessionM.deliver (margin_toValue (hmargin.symm.trans hvalues))

/-- An operation on lanes is in each iteration what the builtin in its place does. -/
theorem carries_of_expr? {operation : LoopOp} (hown : kernels.IsOwn)
    (hop : b.loopOp? = some operation) (he : operation.expr? operands = some e)
    (hlane : e.evaluate index given kernels = .ok lane) (hi : i < index.size) :
    ∃ builtin lanes, b = .eager builtin ∧
      LoopExpr.evaluateAll index given kernels operands = .ok lanes ∧
        builtin.Carries lanes lane i := by
  have hpos : 0 < index.size := Nat.zero_lt_of_lt hi
  -- an elementwise operation, and what it is in the iteration
  have hmap {op : ElementwiseOp} (h : (LoopExpr.map op operands).evaluate index given kernels =
      .ok lane) : ∃ lanes, LoopExpr.evaluateAll index given kernels operands = .ok lanes ∧
        (∀ l ∈ lanes, l.carriesAttributes = false) ∧
          Lane.map op (lanes.map (·.inIteration i)) = .ok (lane.inIteration i) := by
    obtain ⟨lanes, hlanes, hplain, hresult⟩ := LoopExpr.evaluate_map h
    exact ⟨lanes, hlanes, hplain,
      (Lane.map_inIteration hresult (LoopExpr.fits_of_evaluateAll hpos hlanes) hplain hi).1⟩
  unfold LoopOp.expr? at he
  split at he
  · rename_i op x
    cases he
    -- the operation determines the builtin that it replaces, up to the number of operands
    obtain ⟨f, rfl, rfl⟩ := eq_of_loopOp?_unary hop
    obtain ⟨lanes, hlanes, -, hresult⟩ := hmap hlane
    obtain ⟨lx, rfl⟩ := LoopExpr.eq_of_evaluateAll_singleton hlanes
    exact ⟨_, _, rfl, hlanes, EagerBuiltin.carries_math f hresult⟩
  · rename_i op x y
    cases he
    obtain rfl := eq_of_loopOp?_binary hop
    obtain ⟨lanes, hlanes, hplain, hresult⟩ := hmap hlane
    obtain ⟨lx, _, -, hothers, rfl⟩ := LoopExpr.evaluateAll_cons hlanes
    obtain ⟨ly, rfl⟩ := LoopExpr.eq_of_evaluateAll_singleton hothers
    exact ⟨_, _, rfl, hlanes, EagerBuiltin.carries_binary op (hplain lx (by simp))
      (hplain ly (by simp)) hresult⟩
  · rename_i x
    cases he
    obtain rfl := eq_of_loopOp?_binary hop
    obtain ⟨lanes, hlanes, -, hresult⟩ := hmap hlane
    obtain ⟨lx, rfl⟩ := LoopExpr.eq_of_evaluateAll_singleton hlanes
    exact ⟨_, _, rfl, hlanes, EagerBuiltin.carries_neg hresult⟩
  · cases he
    obtain rfl := eq_of_loopOp?_binary hop
    exact ⟨_, _, rfl, LoopExpr.evaluateAll_singleton hlane, EagerBuiltin.carries_plus lane i⟩
  · rename_i name x
    split at he
    · cases he
    · cases he
      obtain ⟨lx, hlx, hcompute⟩ := LoopExpr.evaluate_computation hlane
      obtain ⟨builtin, rfl, hcarries⟩ := carries_of_computation hown hop hcompute
      exact ⟨_, _, rfl, LoopExpr.evaluateAll_singleton hlx, hcarries⟩
  · cases he

end Builtin

end CallByNeed
