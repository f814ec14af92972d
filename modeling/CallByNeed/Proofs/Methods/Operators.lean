import CallByNeed.Proofs.Arguments.Omitted
import CallByNeed.Proofs.Methods.Selection

/-!
# Methods for operators

An operator looks for a method operand by operand, for each operand with a class
attribute class by class, and for each class under its own name before that of
its group (`Evaluator.Tries`).  These are all the names that are tried, and the
order in which they are (`Evaluator.tries_iff`), so the first of them under which
something is found is the first in that order.

The method that is found is applied once, to all operands
(`Session.Operates`): a closure has them matched to its formals, with the name of
the operator bound beside them, and an eager builtin gets their values.
-/

namespace CallByNeed

open Matching SessionM Session

/-- In a list that is made of the lists for the items of another one, whatever stands before an
    entry comes from the items before its own, or from before it in the list for its own. -/
theorem exists_of_flatMap_eq_append_cons {α β : Type} {f : α → List β} {items : List α}
    {before after : List β} {b : β} (h : items.flatMap f = before ++ b :: after) :
    ∃ earlier a later before' after', items = earlier ++ a :: later ∧ f a = before' ++ b :: after' ∧
      before = earlier.flatMap f ++ before' := by
  induction items generalizing before with
  | nil => simp at h
  | cons a rest ih =>
    -- the entry stands in the list for the first item or after it
    rw [List.flatMap_cons, List.append_eq_append_iff] at h
    obtain ⟨middle, rfl, hrest⟩ | ⟨middle, hfirst, hrest⟩ := h
    · obtain ⟨earlier, a', later, before', after', rfl, ha', rfl⟩ := ih hrest
      exact ⟨a :: earlier, a', later, before', after', rfl, ha', by simp⟩
    · cases middle with
      | nil =>
        have hrest' : rest.flatMap f = [] ++ b :: after := hrest.symm
        obtain ⟨earlier, a', later, before', after', rfl, ha', hbefore⟩ := ih hrest'
        refine ⟨a :: earlier, a', later, before', after', rfl, ha', ?_⟩
        rw [List.flatMap_cons, List.append_assoc, ← hbefore, hfirst, List.append_nil,
          List.append_nil]
      | cons b' middle =>
        obtain ⟨rfl, -⟩ := List.cons.inj hrest
        exact ⟨[], a, rest, before, middle, rfl, hfirst, rfl⟩

namespace Evaluator

/-- The names of the methods of an operator, or of its group, for these classes. -/
def classMethodNames (op : String) (classes : List String) : List Symbol :=
  classes.flatMap fun className => [methodName op className, methodName "Ops" className]

/-- The name of a method that an operator may have for these operands, after the names that are
    tried before it: those for the operands before, those for the classes before of its own operand,
    and that of the operator before that of its group. -/
inductive Tries (op : String) (args : ArgList) : (earlier : List Symbol) → Symbol → Prop where
  | operator {before after : ArgList} {arg : Arg Value} {classes later : List String}
      {className : String} (hargs : args = before ++ arg :: after)
      (hclassed : arg.value.hasClassAttribute = true)
      (hclasses : arg.value.classes = classes ++ className :: later) :
      Tries op args (operatorMethodNames op before ++ classMethodNames op classes)
        (methodName op className)
  | group {before after : ArgList} {arg : Arg Value} {classes later : List String}
      {className : String} (hargs : args = before ++ arg :: after)
      (hclassed : arg.value.hasClassAttribute = true)
      (hclasses : arg.value.classes = classes ++ className :: later) :
      Tries op args
        (operatorMethodNames op before ++ classMethodNames op classes ++ [methodName op className])
        (methodName "Ops" className)

variable {op : String} {args before after : ArgList} {arg : Arg Value} {earlier : List Symbol}
  {name : Symbol}

/-! ## The names that are tried -/

theorem operatorMethodNames_append (op : String) (before after : ArgList) :
    operatorMethodNames op (before ++ after) =
      operatorMethodNames op before ++ operatorMethodNames op after :=
  List.flatMap_append

theorem operatorMethodNames_cons_classed (hclassed : arg.value.hasClassAttribute = true) :
    operatorMethodNames op (arg :: after) =
      classMethodNames op arg.value.classes ++ operatorMethodNames op after := by
  rw [operatorMethodNames, List.flatMap_cons, if_pos hclassed]
  rfl

theorem operatorMethodNames_cons_plain (hplain : arg.value.hasClassAttribute = false) :
    operatorMethodNames op (arg :: after) = operatorMethodNames op after := by
  rw [operatorMethodNames, List.flatMap_cons, hplain]
  rfl

/-- Operands without class attribute have no part in it. -/
theorem operatorMethodNames_filter (op : String) (args : ArgList) :
    operatorMethodNames op (args.filter (·.value.hasClassAttribute)) =
      operatorMethodNames op args := by
  induction args with
  | nil => rfl
  | cons arg rest ih =>
    rw [List.filter_cons]
    cases hclassed : arg.value.hasClassAttribute with
    | true =>
      rw [if_pos rfl, operatorMethodNames_cons_classed hclassed,
        operatorMethodNames_cons_classed hclassed, ih]
    | false => rw [if_neg Bool.false_ne_true, operatorMethodNames_cons_plain hclassed, ih]

theorem Tries.eq_append (h : Tries op args earlier name) :
    ∃ later, operatorMethodNames op args = earlier ++ name :: later := by
  cases h with
  | operator hargs hclassed hclasses =>
    rw [hargs, operatorMethodNames_append, operatorMethodNames_cons_classed hclassed, hclasses,
      classMethodNames, List.flatMap_append, List.flatMap_cons]
    exact ⟨_, by simp [classMethodNames]; rfl⟩
  | group hargs hclassed hclasses =>
    rw [hargs, operatorMethodNames_append, operatorMethodNames_cons_classed hclassed, hclasses,
      classMethodNames, List.flatMap_append, List.flatMap_cons]
    exact ⟨_, by simp [classMethodNames]; rfl⟩

theorem tries_iff : Tries op args earlier name ↔
    ∃ later, operatorMethodNames op args = earlier ++ name :: later := by
  refine ⟨Tries.eq_append, fun ⟨later, hnames⟩ => ?_⟩
  obtain ⟨before, arg, after, ofArg, rest, hargs, harg, rfl⟩ :=
    exists_of_flatMap_eq_append_cons hnames
  cases hclassed : arg.value.hasClassAttribute with
  | false =>
    rw [hclassed, if_neg Bool.false_ne_true] at harg
    cases ofArg <;> cases harg
  | true =>
    rw [hclassed, if_pos rfl] at harg
    obtain ⟨classes, className, later', ofClass, rest', hclasses, hpair, rfl⟩ :=
      exists_of_flatMap_eq_append_cons harg
    -- the two names for the class that is reached
    obtain _ | ⟨first, _ | ⟨second, more⟩⟩ := ofClass
    · cases hpair
      rw [List.append_nil]
      exact .operator hargs hclassed hclasses
    · cases hpair
      rw [← List.append_assoc]
      exact .group hargs hclassed hclasses
    · cases more <;> cases hpair

end Evaluator

/-! ## Applying the method -/

variable {s t u v : Session} {env : EnvId}

/-- Forcing promised operands gives the operands back. -/
theorem Evaluator.forceArgs_run_wrapped (ev : Evaluator) {args passed : ArgList}
    (h : Handed (s.Wraps t) args passed) : ∃ operands,
      (passed.mapM ev.forceArg : SessionM ArgList) t = (.ok operands, t) ∧
        Handed (fun given operand => operand = given) args operands := by
  refine ev.forceArgs_run_known (h.imp ?_)
  rintro arg given ⟨htag, id, hvalue, -, hp⟩
  have hknown : t.known? given.value = some arg.value :=
    hvalue ▸ known?_promise_eq_some_iff.2 ⟨_, hp⟩
  refine ⟨by simp [hvalue, Value.isMissingArg], arg.value, hknown, ?_, rfl⟩
  rw [Arg.new, htag, Symbol.asTag?_bind]

/-- The frame of an invocation is ready for the body of the closure: every formal is bound to what
    it was assigned, or to its default, and one name is bound beside the formals.  No promise has
    changed. -/
structure Session.Readies (s t : Session) (env : EnvId) (formals args : ArgList) (beside : Symbol)
    (value : Value) : Prop where
  cells : s.KeepsCells t
  last : ∃ f, t.heap.frame? env = some f ∧ f.get? beside = some ⟨value, false⟩
  filled : ∃ σ, Assigns formals args σ ∧ ∀ i formal name, formals[i]? = some formal →
    formal.tag = some name →
    (∀ j later, i < j → formals[j]? = some later → later.tag ≠ some name) → name ≠ beside →
    t.Enters env name formal.value (assigned formals args σ i)

theorem SessionM.furnish_run_readies {closure : Closure} {args matched : ArgList}
    {beside : Symbol} {value : Value} (hlive : s.heap.contains env = true)
    (hmatched : matchFormals closure.formals args true = .ok matched) :
    ∃ t, furnish closure env args [(beside, value)] s = (.ok (), t) ∧
      s.Readies t env closure.formals args beside value := by
  obtain ⟨σ, t, hσ, hrun, hcells, henters⟩ :=
    furnish_run_entered [(beside, value)] hlive hmatched
  refine ⟨t, hrun, hcells, ?_, σ, hσ, fun i formal name hformal htag hlast hname =>
    henters i formal name hformal htag hlast
      (List.not_mem_cons_of_ne_of_not_mem hname List.not_mem_nil)⟩
  -- what is bound beside the formals is bound at last
  rw [furnish] at hrun
  rcases hbound : bindArguments closure.formals args env s with ⟨e | ⟨⟩, u⟩
  · rw [bind_run_error hbound] at hrun
    cases hrun
  · rw [bind_run_ok hbound] at hrun
    have hbind := bindIn_run env beside value u
    cases hlive' : u.heap.contains env with
    | false =>
      rw [hlive', if_neg Bool.false_ne_true] at hbind
      cases (bind_run_error hbind _).symm.trans hrun
    | true =>
      rw [hlive', if_pos rfl] at hbind
      cases (bind_run_ok hbind _).symm.trans hrun
      obtain ⟨f, hf⟩ := Option.isSome_iff_exists.1 hlive'
      refine ⟨f.bind beside ⟨value, false⟩, ?_, Frame.get?_bind_self _ _ _⟩
      rw [frame?_bound hlive', if_pos rfl, hf, Option.map_some]

namespace Evaluator

variable {ev : Evaluator} {op : String} {args : ArgList} {table : Option EnvId}
  {earlier : List Symbol} {name : Symbol} {outcome : Except Interrupt (Option Value)}

/-! ## The first method -/

theorem Tries.firstMethod_run (h : Tries op args earlier name)
    (hmisses : ev.Misses env table earlier s u) (hfinds : ev.Finds env table name u outcome v)
    (hdecides : outcome ≠ .ok none) :
    ev.firstMethod env table (operatorMethodNames op args) s = (outcome, v) := by
  obtain ⟨later, hnames⟩ := h.eq_append
  rw [hnames]
  exact hmisses.firstMethod_run_finds hfinds hdecides later

/-- Nothing is found under any of the names, or the search ends with one of them. -/
theorem misses_or_tries (ev : Evaluator) (op : String) (args : ArgList) (env : EnvId)
    (table : Option EnvId) (s : Session) :
    (∃ t, ev.Misses env table (operatorMethodNames op args) s t) ∨
      ∃ earlier name u outcome t, Tries op args earlier name ∧
        ev.Misses env table earlier s u ∧ ev.Finds env table name u outcome t ∧
        outcome ≠ .ok none := by
  obtain hmisses | ⟨i, outcome, t, hdecides, name, u, hname, hmisses, hfinds⟩ :=
    misses_or_stopsAt ev env table (operatorMethodNames op args) s
  · exact .inl hmisses
  · obtain ⟨hi, hname⟩ := List.getElem?_eq_some_iff.1 hname
    have htries : Tries op args ((operatorMethodNames op args).take i) name := by
      refine tries_iff.2 ⟨(operatorMethodNames op args).drop (i + 1), ?_⟩
      rw [← hname, ← List.drop_eq_getElem_cons hi, List.take_append_drop]
    exact .inr ⟨_, name, u, outcome, t, htries, hmisses, hfinds, hdecides⟩

theorem dispatchOperator_run_none_iff
    (htable : s.heap.methodsTable s.namespaces.baseEnv = .ok table) :
    ev.dispatchOperator op env args s = (.ok none, t) ↔
      ev.Misses env table (operatorMethodNames op args) s t := by
  have htable' : methodsTable s.namespaces.baseEnv s = (.ok table, s) := askHeap_run_ok htable
  constructor
  · intro hrun
    rcases hfirst : ev.firstMethod env table (operatorMethodNames op args) s with
      ⟨e | _ | method, u⟩
    · rw [dispatchOperator, get_bind_run, bind_run_ok htable', bind_run_error hfirst] at hrun
      cases hrun
    · rw [dispatchOperator, get_bind_run, bind_run_ok htable', bind_run_ok hfirst] at hrun
      cases hrun
      exact firstMethod_run_none_iff.1 hfirst
    · -- an operator that has a method answers the value of that
      obtain ⟨passed, call, generic, w, -, hrun'⟩ :=
        ev.dispatchOperator_run_operates htable' hfirst
      rw [hrun', bind_run] at hrun
      split at hrun <;> cases hrun
  · intro hmisses
    rw [dispatchOperator, get_bind_run, bind_run_ok htable',
      bind_run_ok (firstMethod_run_none_iff.2 hmisses)]
    rfl

theorem dispatchOperator_run_error
    (htable : s.heap.methodsTable s.namespaces.baseEnv = .ok table) {e : Interrupt}
    (hfirst : ev.firstMethod env table (operatorMethodNames op args) s = (.error e, t)) :
    ev.dispatchOperator op env args s = (.error e, t) := by
  have htable' : methodsTable s.namespaces.baseEnv s = (.ok table, s) := askHeap_run_ok htable
  rw [dispatchOperator, get_bind_run, bind_run_ok htable', bind_run_error hfirst]

/-- An operator applies the method under the first name under which there is one, once and to all
    operands, and answers its value; there is no value just if nothing is found under any name.  The
    names are those of operands with a class attribute, operand by operand, class by class, and the
    operator before its group.  A search that breaks off fails the operator; in a founded session
    only a promise breaks it off. -/
theorem dispatchOperator_first (ev : Evaluator) (s : Session) (op : String) (env : EnvId)
    (args : ArgList) :
    (s.heap.contains s.namespaces.baseEnv = false → ev.dispatchOperator op env args s =
      (.error (.failure (.staleEnvironment s.namespaces.baseEnv)), s)) ∧
    (s.heap.contains s.namespaces.baseEnv = true →
      ∃ table, s.heap.methodsTable s.namespaces.baseEnv = .ok table) ∧
    (∀ earlier name, Tries op args earlier name ↔
      ∃ later, operatorMethodNames op args = earlier ++ name :: later) ∧
    operatorMethodNames op (args.filter (·.value.hasClassAttribute)) =
      operatorMethodNames op args ∧
    (∀ table, s.heap.methodsTable s.namespaces.baseEnv = .ok table →
      (∀ t, ev.dispatchOperator op env args s = (.ok none, t) ↔
        ev.Misses env table (operatorMethodNames op args) s t) ∧
      (∀ earlier name u method v, Tries op args earlier name →
        ev.Misses env table earlier s u → ev.Finds env table name u (.ok (some method)) v →
        ∃ passed call generic w, v.Operates w op args passed call generic ∧
          ev.dispatchOperator op env args s = (do
            return some (← ev (.apply method call passed env [(⟨".Generic"⟩, generic)])) :
              SessionM _) w) ∧
      (∀ earlier name u e t, Tries op args earlier name →
        ev.Misses env table earlier s u → ev.Finds env table name u (.error e) t →
        ev.dispatchOperator op env args s = (.error e, t) ∧ ev.Breaks env t e ∧
          ∀ fuel, ev = evaluator fuel → s.Founded → s.heap.contains env = true →
            ∃ promise v, ev.demand promise v = (.error e, t)) ∧
      ((∃ t, ev.Misses env table (operatorMethodNames op args) s t) ∨
        ∃ earlier name u outcome t, Tries op args earlier name ∧ ev.Misses env table earlier s u ∧
          ev.Finds env table name u outcome t ∧ outcome ≠ .ok none)) ∧
    ∀ (fuel : Nat) (v w : Session) (passed : ArgList) (call : Call) (generic : Value),
      v.Operates w op args passed call generic →
      (∀ identity builtin, ∃ operands, Handed (fun given operand => operand = given) args operands ∧
        evaluator (fuel + 1) (.apply (.builtin identity (.eager builtin)) call passed env
          [(⟨".Generic"⟩, generic)]) w = (evaluator fuel).runEager builtin operands env w) ∧
      ∀ closure matched, w.heap.WellFormed → w.depth < w.options.maxCallDepth →
        matchFormals closure.formals passed true = .ok matched →
        let frame := (w.heap.allocate (some closure.env)).1
        let body := catchReturn frame ((evaluator fuel).evaluate closure.body frame)
        ∃ t, w.Readies t frame closure.formals passed ⟨".Generic"⟩ generic ∧
          evaluator (fuel + 1) (.apply (.closure closure) call passed env
            [(⟨".Generic"⟩, generic)]) w = ((body t).1, (body t).2.leave) := by
  refine ⟨fun hstale => ?_, Heap.exists_methodsTable, fun _ _ => tries_iff,
    operatorMethodNames_filter op args, fun table htable => ⟨fun t => ?_, ?_, ?_, ?_⟩,
    fun fuel v w passed call generic hoperates => ⟨fun identity builtin => ?_, ?_⟩⟩
  · have htable : methodsTable s.namespaces.baseEnv s =
        (.error (.failure (.staleEnvironment s.namespaces.baseEnv)), s) := by
      refine askHeap_run_error ?_
      rw [Heap.methodsTable, Heap.getLocal_of_stale hstale]
      rfl
    rw [dispatchOperator, get_bind_run, bind_run_error htable]
  · exact dispatchOperator_run_none_iff htable
  · intro earlier name u method v htries hmisses hfinds
    exact ev.dispatchOperator_run_operates (askHeap_run_ok htable)
      (htries.firstMethod_run hmisses hfinds (by simp))
  · intro earlier name u e t htries hmisses hfinds
    refine ⟨dispatchOperator_run_error htable (htries.firstMethod_run hmisses hfinds (by simp)),
      hfinds.breaks, ?_⟩
    rintro fuel rfl hs henv
    have htable' : s.heap.tableFor (some s.namespaces.baseEnv) = .ok table := htable
    exact hmisses.demand_of_error hs henv (hs.contains_table htable') hfinds
  · exact misses_or_tries ev op args env table s
  · obtain ⟨operands, hrun, hoperands⟩ := (evaluator fuel).forceArgs_run_wrapped hoperates.passed
    exact ⟨operands, hoperands, bind_run_ok hrun _⟩
  · intro closure matched hwf hroom hmatched frame body
    have hlive : (entering w closure env call passed).heap.contains frame = true := by
      have hframe : (entering w closure env call passed).heap.frame? frame =
          some (.empty (some closure.env)) := hwf.frame?_insert_self _
      rw [Heap.contains, hframe]
      rfl
    obtain ⟨t, hfurnish, hcells, hlast, hfilled⟩ := furnish_run_readies hlive hmatched
    exact ⟨t, ⟨hcells, hlast, hfilled⟩, (evaluator fuel).invoke_run_furnished hroom rfl hfurnish⟩

/-- Of two operands only the second one has classes, foo and bar.  A method of the group for foo is
    applied to both, and not one of the operator for bar, and `.Generic` is bound when its body
    begins.  Nothing is applied to operands without class, and from an environment that is not there
    the search fails. -/
theorem dispatchOperator_first_group :
    let foo : Value := .vector ⟨⟨100⟩, .character #["x"],
      ⟨[(.classAttribute, .vector ⟨⟨101⟩, .character #["foo", "bar"], .empty⟩)]⟩⟩
    let method : Closure :=
      ⟨⟨102⟩, [.tagged ⟨"a"⟩ .missingArg, .tagged ⟨"b"⟩ .missingArg], .null, ⟨1, 0⟩⟩
    let new := Session.initial {} .empty
    let s := (new.bound ⟨1, 0⟩ ⟨"+.bar"⟩ ⟨.closure method, false⟩).bound ⟨1, 0⟩ ⟨"Ops.foo"⟩
      ⟨.closure method, false⟩
    let args : ArgList := [.untagged .null, .untagged foo]
    let plain : ArgList := [.untagged .null, .untagged .null]
    let passed : ArgList := [.untagged (.promise ⟨0⟩), .untagged (.promise ⟨1⟩)]
    let call : Call := ⟨⟨103⟩, .symbol ⟨"+"⟩, args⟩
    let generic : Value := .vector ⟨⟨104⟩, .character #["+"], .empty⟩
    let w : Session :=
      { s with promises := ((s.promises.add ⟨.null, .kept .null⟩).2.add ⟨foo, .kept foo⟩).2 }
    let ev := evaluator 2
    ev.dispatchOperator "+" ⟨1, 0⟩ plain s = (.ok none, s) ∧
    ev.dispatchOperator "+" ⟨9, 0⟩ args s =
      (.error (.failure (.staleEnvironment ⟨9, 0⟩)), s) ∧
    (∃ passed call generic w, s.Operates w "+" args passed call generic ∧
      ev.dispatchOperator "+" ⟨1, 0⟩ args s = (do
        return some (← ev (.apply (.closure method) call passed ⟨1, 0⟩
          [(⟨".Generic"⟩, generic)])) : SessionM _) w) ∧
    ∃ t, w.Readies t ⟨2, 0⟩ method.formals passed ⟨".Generic"⟩ generic ∧
      (ev (.apply (.closure method) call passed ⟨1, 0⟩ [(⟨".Generic"⟩, generic)]) w).1 =
        (catchReturn ⟨2, 0⟩ ((evaluator 1).evaluate .null ⟨2, 0⟩) t).1 := by
  intro foo method new s args plain passed call generic w ev
  obtain ⟨-, -, -, -, hplain, -⟩ := dispatchOperator_first ev s "+" ⟨1, 0⟩ plain
  obtain ⟨-, -, -, -, hstale, -⟩ := dispatchOperator_first ev s "+" ⟨9, 0⟩ args
  obtain ⟨-, -, -, -, hargs, happlies⟩ := dispatchOperator_first ev s "+" ⟨1, 0⟩ args
  have htable : s.heap.methodsTable s.namespaces.baseEnv = .ok none := rfl
  have hunseen : ev.Passes (methodName "+" "foo") (some ⟨1, 0⟩) s [⟨1, 0⟩, ⟨0, 0⟩] none s :=
    .outward rfl (.unbound rfl rfl) (.outward rfl (.unbound rfl rfl) .here)
  have hmisses : ev.Misses ⟨1, 0⟩ none [methodName "+" "foo"] s s :=
    .cons (.nowhere (.nothing hunseen (by decide)) rfl) .nil
  have hfinds : ev.Finds ⟨1, 0⟩ none (methodName "Ops" "foo") s (.ok (some (.closure method))) s :=
    .visible (.nearest .here (by decide) (.function rfl rfl rfl rfl))
  have hwf : w.heap.WellFormed :=
    (((Heap.wellFormed_empty.insert _).allocate _).updateSlot _ _).updateSlot _ _
  have hmatched : matchFormals method.formals passed true =
      .ok [.tagged ⟨"a"⟩ (.promise ⟨0⟩), .tagged ⟨"b"⟩ (.promise ⟨1⟩)] := by rfl
  have hoperates : s.Operates w "+" args passed call generic :=
    ⟨.cons ⟨rfl, ⟨0⟩, rfl, rfl, rfl⟩ (.cons ⟨rfl, ⟨1⟩, rfl, rfl, rfl⟩ .nil), rfl, rfl, rfl, rfl,
      fun _ _ hp => PromiseStore.get?_add_of_some _ (PromiseStore.get?_add_of_some _ hp)⟩
  obtain ⟨t, hreadies, hrun⟩ :=
    (happlies 1 s w passed call generic hoperates).2 method _ hwf (by decide) hmatched
  have hvalue := congrArg Prod.fst hrun
  refine ⟨((hplain none htable).1 s).2 .nil, ?_, ?_, t, hreadies, hvalue⟩
  · have htries : Tries "+" args [] (methodName "+" "foo") := tries_iff.2 ⟨_, rfl⟩
    exact ((hstale none htable).2.2.1 _ _ _ _ _ htries .nil
      (.fails (.fails .here (by decide) (.stale rfl)))).1
  · have htries : Tries "+" args [methodName "+" "foo"] (methodName "Ops" "foo") :=
      tries_iff.2 ⟨_, rfl⟩
    exact (hargs none htable).2.1 _ _ _ _ _ htries hmisses hfinds

/-- A search from an environment that was freed fails, though no promise is there that could fail
    and nothing is bound under the names that are tried; and a special form that is a method
    evaluates the operands: what a block makes of the symbol `y` is the value of the variable. -/
theorem dispatchOperator_stale_or_special :
    let foo : Value := .vector ⟨⟨100⟩, .character #["x"],
      ⟨[(.classAttribute, .vector ⟨⟨101⟩, .character #["foo"], .empty⟩)]⟩⟩
    let y : Value := .symbol ⟨"y"⟩
    let new := Session.initial {} .empty
    let freed := (collect [] (allocate none new).2).2
    let special := (new.bound ⟨1, 0⟩ ⟨"y"⟩ ⟨.null, false⟩).bound ⟨1, 0⟩ ⟨"+.foo"⟩
      ⟨.builtin ⟨102⟩ (.special .block), false⟩
    (((evaluator 3).dispatchOperator "+" ⟨2, 0⟩ [.untagged foo, .untagged .null] freed).1 =
        .error (.failure (.staleEnvironment ⟨2, 0⟩)) ∧ freed.promises.cells = #[] ∧
      ∀ id f, freed.heap.frame? id = some f →
        f.get? ⟨"+.foo"⟩ = none ∧ f.get? ⟨"Ops.foo"⟩ = none) ∧
    ((evaluator 3).dispatchOperator "+" ⟨1, 0⟩ [.untagged foo, .untagged y] special).1 =
      .ok (some .null) := by
  intro foo y new freed special
  have hbase : freed.heap.contains freed.namespaces.baseEnv = true := by decide +kernel
  have hstale : freed.heap.contains ⟨2, 0⟩ = false := by decide +kernel
  have hpromises : freed.promises.cells.size = 0 := by decide +kernel
  have hunbound : freed.heap.slots.all (fun slot => slot.frame.all fun f =>
      (f.get? ⟨"+.foo"⟩).isNone && (f.get? ⟨"Ops.foo"⟩).isNone) = true := by decide +kernel
  refine ⟨⟨?_, Array.eq_empty_of_size_eq_zero hpromises, fun id f hf => ?_⟩, rfl⟩
  · obtain ⟨table, htable⟩ := Heap.exists_methodsTable hbase
    have hframe : freed.heap.frame? ⟨2, 0⟩ = none := by simpa [Heap.contains] using hstale
    have htries : Tries "+" [.untagged foo, .untagged .null] [] (methodName "+" "foo") :=
      tries_iff.2 ⟨_, rfl⟩
    have hfinds : (evaluator 3).Finds ⟨2, 0⟩ table (methodName "+" "foo") freed
        (.error (.failure (.staleEnvironment ⟨2, 0⟩))) freed :=
      .fails (.fails .here (Nat.succ_pos _) (.stale hframe))
    exact congrArg Prod.fst
      (dispatchOperator_run_error htable (htries.firstMethod_run .nil hfinds (by simp)))
  · obtain ⟨slot, hslot, -, hframe⟩ := Heap.frame?_eq_some_iff.1 hf
    have hframes := Array.all_eq_true'.1 hunbound slot (Array.mem_of_getElem? hslot)
    simpa [hframe] using hframes

end Evaluator

end CallByNeed
