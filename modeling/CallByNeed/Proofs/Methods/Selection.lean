import CallByNeed.Proofs.Dangling.Loops
import CallByNeed.Proofs.Methods.Search
import CallByNeed.Proofs.Termination.Measure

/-!
# The first class with a method

The method of a generic is selected by a search under one name for each class, in
their order, and at last under that for the default (`methodOrDefault_run_iff`).
So a class is preferred to every later one, and only for the same class does it
matter whether a method is visible or registered
(`Evaluator.selectMethod_first`).

The frames that such a search passes over are read one by one, and promises are
forced in between.  In a founded session this makes no difference: they are the
frames around the environment of the call as it began (`Evaluator.Passes.eq_append`).
-/

namespace CallByNeed

namespace Heap

variable {h h' : Heap} {start : Option EnvId} {ids : List EnvId}

/-- The frames from `start` outward, up to one without parent. -/
inductive Outward (h : Heap) : Option EnvId → List EnvId → Prop where
  | outside : Outward h none []
  | frame {id : EnvId} {f : Frame} {ids : List EnvId} (hframe : h.frame? id = some f)
      (houter : Outward h f.parent ids) : Outward h (some id) (id :: ids)

theorem Outward.deepens (houtward : h.Outward start ids) (hdeepens : h.Deepens h') :
    h'.Outward start ids := by
  induction houtward with
  | outside => exact .outside
  | frame hframe _ ih =>
    obtain ⟨g, hg, hparent⟩ := hdeepens.parents hframe
    exact .frame hg (hparent ▸ ih)

theorem Outward.length_le {n : Nat} (houtward : h.Outward start ids)
    (hends : h.EndsWithin n start) : ids.length ≤ n := by
  induction houtward generalizing n with
  | outside => exact Nat.zero_le n
  | frame hframe _ ih =>
    cases n with
    | zero => exact hends.elim
    | succ n => exact Nat.succ_le_succ (ih (hends _ hframe))

/-- Where parents are there, the way outward ends at a frame without parent. -/
theorem exists_outward {n : Nat} (hends : h.EndsWithin n start)
    (hparents : ∀ {id f parent}, h.frame? id = some f → f.parent = some parent →
      h.contains parent = true) (hstart : ∀ id ∈ start, h.contains id = true) :
    ∃ frames, h.Outward start (frames.map Prod.fst) ∧ h.scopeWithin n start = ⟨frames, none⟩ := by
  induction n generalizing start with
  | zero =>
    cases start with
    | none => exact ⟨[], .outside, rfl⟩
    | some id => exact hends.elim
  | succ n ih =>
    cases start with
    | none => exact ⟨[], .outside, rfl⟩
    | some id =>
      obtain ⟨f, hf⟩ := Option.isSome_iff_exists.1 (hstart id rfl)
      obtain ⟨frames, houtward, hscope⟩ := ih (hends f hf) fun _ hparent => hparents hf hparent
      refine ⟨(id, f) :: frames, .frame hf houtward, ?_⟩
      rw [scopeWithin, hf]
      dsimp only
      rw [hscope]

end Heap

/-- In a founded session the frames around an environment that is there are there, too. -/
theorem Session.Founded.exists_chain {s : Session} {env : EnvId} (hs : s.Founded)
    (henv : s.heap.contains env = true) :
    ∃ ids, s.heap.chain env = .ok ids ∧ s.heap.Outward (some env) ids := by
  obtain ⟨frames, houtward, hscope⟩ := Heap.exists_outward (hs.layered.endsWithin (some env))
    hs.safe.parents fun id hid => Option.some.inj hid ▸ henv
  refine ⟨frames.map Prod.fst, ?_, houtward⟩
  rw [Heap.chain, Heap.scope, Heap.scopeFrom, hscope]

/-- The methods table of the environment that defines a generic, if that is given and has one. -/
def Heap.tableFor (h : Heap) : (definitionEnv : Option EnvId) → Except EvalError (Option EnvId)
  | none => .ok none
  | some definitionEnv => h.methodsTable definitionEnv

/-- A methods table is there as long as something is bound to it. -/
theorem Session.Founded.contains_table {s : Session} {definitionEnv table : Option EnvId}
    (hs : s.Founded) (htable : s.heap.tableFor definitionEnv = .ok table) :
    ∀ id ∈ table, s.heap.contains id = true := by
  rintro id rfl
  cases definitionEnv with
  | none => cases htable
  | some d =>
    have hget := Heap.methodsTable_eq_some_iff.1 htable
    obtain ⟨f, hf⟩ := Option.isSome_iff_exists.1 (Heap.contains_of_getLocal hget)
    rw [Heap.getLocal_of_frame? hf, Except.ok.injEq] at hget
    obtain ⟨b, hb, hvalue⟩ := Option.map_eq_some_iff.1 hget
    exact admits_environment.1 (hvalue ▸ hs.safe.binding hf hb)

namespace Evaluator

variable {ev : Evaluator} {s t u : Session} {name : Symbol} {id env : EnvId}
  {table : Option EnvId} {names : List Symbol} {outcome : Except Interrupt (Option Value)}
  {e : Interrupt}

/-! ## Searches that go on safely -/

section Safe

variable (hev : ev.IsSafe) (hs : s.Safe)
include hev hs

theorem Looks.onward (h : ev.Looks name id s outcome t) : s.Onward t := by
  have hforced {f : Frame} {b : Binding} {forced : Except Interrupt Value}
      (hframe : s.heap.frame? id = some f) (hget : f.get? name = some b)
      (hforce : ev.force b.value s = (forced, t)) : s.Onward t := by
    have honward := (safe_force hev hs (hs.binding hframe hget)).onward
    rwa [hforce] at honward
  cases h with
  | stale => exact .refl hs
  | unbound => exact .refl hs
  | function hframe hget hforce => exact hforced hframe hget hforce
  | other hframe hget hforce => exact hforced hframe hget hforce
  | fails hframe hget hforce => exact hforced hframe hget hforce

/-- The frames that are passed over are the first ones of the way outward, and what comes next is
    the rest of it. -/
theorem Passes.eq_append {start next : Option EnvId} {ids frames : List EnvId}
    (h : ev.Passes name start s ids next t) (hframes : s.heap.Outward start frames) :
    s.Onward t ∧ ∃ rest, frames = ids ++ rest ∧ t.heap.Outward next rest := by
  -- a look may run the program, but the frames on the way keep their parents
  induction h generalizing frames with
  | here => exact ⟨.refl hs, frames, rfl, hframes⟩
  | outward hframe hlook _ ih =>
    cases hframes with
    | frame hframe' houter =>
      cases hframe.symm.trans hframe'
      have honward := hlook.onward hev hs
      obtain ⟨honward', rest, rfl, hrest⟩ := ih honward.safe (houter.deepens honward.deepens)
      exact ⟨honward.trans honward', rest, rfl, hrest⟩

variable {frames : List EnvId} (hlayered : s.heap.Layered)
  (hframes : s.heap.Outward (some env) frames)
include hlayered hframes

/-- The search ends before the limit, and it meets frames only. -/
theorem Sees.onward (h : ev.Sees name env s outcome t) :
    s.Onward t ∧ ∀ e, outcome = .error e → ∃ promise v, ev.demand promise v = (.error e, t) := by
  have hlength := hframes.length_le (hlayered.endsWithin (some env))
  cases h with
  | nearest hpasses _ hlook =>
    obtain ⟨honward, -⟩ := hpasses.eq_append hev hs hframes
    exact ⟨honward.trans (hlook.onward hev honward.safe), nofun⟩
  | nothing hpasses => exact ⟨(hpasses.eq_append hev hs hframes).1, nofun⟩
  | fails hpasses _ hlook =>
    obtain ⟨honward, rest, -, hrest⟩ := hpasses.eq_append hev hs hframes
    refine ⟨honward.trans (hlook.onward hev honward.safe), fun e he => ?_⟩
    cases he
    cases hrest with
    | frame hframe _ =>
      exact hlook.demand_of_error (Heap.contains_of_frame? hframe)
  | beyond hpasses hlimit =>
    -- there would be more frames on the way outward than slots
    obtain ⟨-, rest, rfl, hrest⟩ := hpasses.eq_append hev hs hframes
    cases hrest with
    | frame hframe _ =>
      rw [List.length_append, List.length_cons] at hlength
      omega

variable (htable : ∀ id ∈ table, s.heap.contains id = true)
include htable

theorem Finds.onward (h : ev.Finds env table name s outcome t) :
    s.Onward t ∧ ∀ e, outcome = .error e → ∃ promise v, ev.demand promise v = (.error e, t) := by
  cases h with
  | visible hsees => exact ⟨(hsees.onward hev hs hlayered hframes).1, nofun⟩
  | fails hsees => exact hsees.onward hev hs hlayered hframes
  | nowhere hsees => exact ⟨(hsees.onward hev hs hlayered hframes).1, nofun⟩
  | registered hsees hid hlook =>
    obtain ⟨honward, -⟩ := hsees.onward hev hs hlayered hframes
    refine ⟨honward.trans (hlook.onward hev honward.safe), fun e he => ?_⟩
    subst he
    exact hlook.demand_of_error (honward.live (htable _ hid))

theorem Misses.onward (h : ev.Misses env table names s t) : s.Onward t := by
  induction h generalizing frames with
  | nil => exact .refl hs
  | cons hfinds _ ih =>
    obtain ⟨honward, -⟩ := hfinds.onward hev hs hlayered hframes htable
    exact honward.trans (ih honward.safe (honward.deepens.layered hlayered)
      (hframes.deepens honward.deepens) fun id hid => honward.live (htable id hid))

end Safe

/-- In a founded session a search that fails does so with a promise that it had to force. -/
theorem Misses.demand_of_error {fuel : Nat} (hs : s.Founded)
    (henv : s.heap.contains env = true) (htable : ∀ id ∈ table, s.heap.contains id = true)
    (hmisses : (evaluator fuel).Misses env table names s u)
    (hfinds : (evaluator fuel).Finds env table name u (.error e) t) :
    ∃ promise v, (evaluator fuel).demand promise v = (.error e, t) := by
  have hev := isSafe_evaluator fuel
  obtain ⟨frames, -, hframes⟩ := hs.exists_chain henv
  have honward := hmisses.onward hev hs.safe hs.layered hframes htable
  exact (hfinds.onward hev honward.safe (honward.deepens.layered hs.layered)
    (hframes.deepens honward.deepens) fun id hid => honward.live (htable id hid)).2 e rfl

/-! ## One class after the other -/

/-- The method that is selected: that of the first class under whose name one is found, with the
    classes from there onward; or else the default, with no classes; or none.  The selection fails
    where the search under a name does. -/
inductive Selects (ev : Evaluator) (generic : String) (classes : List String) (env : EnvId)
    (table : Option EnvId) (s : Session) :
    Except Interrupt (Option SelectedMethod) → Session → Prop where
  | byClass {i : Nat} {className : String} {method : Value} {t u : Session}
      (hclass : classes[i]? = some className)
      (hmisses : ev.Misses env table ((classes.map (methodName generic)).take i) s t)
      (hfinds : ev.Finds env table (methodName generic className) t (.ok (some method)) u) :
      Selects ev generic classes env table s
        (.ok (some ⟨method, methodName generic className, classes.drop i⟩)) u
  | byDefault {method : Value} {t u : Session}
      (hmisses : ev.Misses env table (classes.map (methodName generic)) s t)
      (hfinds : ev.Finds env table (methodName generic "default") t (.ok (some method)) u) :
      Selects ev generic classes env table s
        (.ok (some ⟨method, methodName generic "default", []⟩)) u
  | nothing {t : Session}
      (hmisses : ev.Misses env table
        (classes.map (methodName generic) ++ [methodName generic "default"]) s t) :
      Selects ev generic classes env table s (.ok none) t
  | failsByClass {i : Nat} {className : String} {e : Interrupt} {t u : Session}
      (hclass : classes[i]? = some className)
      (hmisses : ev.Misses env table ((classes.map (methodName generic)).take i) s t)
      (hfinds : ev.Finds env table (methodName generic className) t (.error e) u) :
      Selects ev generic classes env table s (.error e) u
  | failsByDefault {e : Interrupt} {t u : Session}
      (hmisses : ev.Misses env table (classes.map (methodName generic)) s t)
      (hfinds : ev.Finds env table (methodName generic "default") t (.error e) u) :
      Selects ev generic classes env table s (.error e) u

variable {generic : String} {classes : List String} {method : Value}

theorem Misses.methodForClasses_run (h : ev.Misses env table (classes.map (methodName generic)) s t)
    (rest : List String) :
    ev.methodForClasses generic env table (classes ++ rest) s =
      ev.methodForClasses generic env table rest t := by
  induction classes generalizing s with
  | nil =>
    cases h
    rfl
  | cons className classes ih =>
    cases h with
    | cons hfinds hmisses =>
      rw [List.cons_append, methodForClasses, SessionM.bind_run_ok hfinds.method?_run]
      exact ih hmisses

/-- The class at which the search stops decides, and the classes before it are left out. -/
theorem Finds.methodForClasses_run {i : Nat} {className : String}
    (hclass : classes[i]? = some className)
    (hmisses : ev.Misses env table ((classes.map (methodName generic)).take i) s u)
    (hfinds : ev.Finds env table (methodName generic className) u outcome t)
    (hdecides : outcome ≠ .ok none) :
    ev.methodForClasses generic env table classes s =
      (outcome.map (·.map (⟨·, methodName generic className, classes.drop i⟩)), t) := by
  obtain ⟨hi, hclass⟩ := List.getElem?_eq_some_iff.1 hclass
  rw [← List.map_take] at hmisses
  have hrun := hmisses.methodForClasses_run (classes.drop i)
  rw [List.take_append_drop] at hrun
  rw [hrun, List.drop_eq_getElem_cons hi, hclass, methodForClasses]
  rcases outcome with e | _ | method
  · exact SessionM.bind_run_error hfinds.method?_run _
  · exact absurd rfl hdecides
  · rw [SessionM.bind_run_ok hfinds.method?_run]
    rfl

theorem methodOrDefault_run_class {i : Nat} {className : String}
    (hclass : classes[i]? = some className)
    (hmisses : ev.Misses env table ((classes.map (methodName generic)).take i) s u)
    (hfinds : ev.Finds env table (methodName generic className) u outcome t)
    (hdecides : outcome ≠ .ok none) :
    ev.methodOrDefault generic classes env table s =
      (outcome.map (·.map (⟨·, methodName generic className, classes.drop i⟩)), t) := by
  have hrun := hfinds.methodForClasses_run hclass hmisses hdecides
  rw [methodOrDefault]
  rcases outcome with e | _ | method
  · exact SessionM.bind_run_error hrun _
  · exact absurd rfl hdecides
  · rw [SessionM.bind_run_ok hrun]
    rfl

theorem methodOrDefault_run_default
    (hmisses : ev.Misses env table (classes.map (methodName generic)) s u)
    (hfinds : ev.Finds env table (methodName generic "default") u outcome t) :
    ev.methodOrDefault generic classes env table s =
      (outcome.map (·.map (⟨·, methodName generic "default", []⟩)), t) := by
  have hrun := hmisses.methodForClasses_run []
  rw [List.append_nil] at hrun
  rw [methodOrDefault, SessionM.bind_run_ok hrun]
  dsimp only
  rw [SessionM.bind_run, hfinds.method?_run]
  cases outcome <;> rfl

theorem Selects.methodOrDefault_run {selection : Except Interrupt (Option SelectedMethod)}
    (h : ev.Selects generic classes env table s selection t) :
    ev.methodOrDefault generic classes env table s = (selection, t) := by
  cases h with
  | byClass hclass hmisses hfinds => exact methodOrDefault_run_class hclass hmisses hfinds nofun
  | byDefault hmisses hfinds => exact methodOrDefault_run_default hmisses hfinds
  | nothing hmisses =>
    obtain ⟨u, hclasses, hdefault⟩ := misses_append_iff.1 hmisses
    cases hdefault with
    | cons hfinds hnil =>
      cases hnil
      exact methodOrDefault_run_default hclasses hfinds
  | failsByClass hclass hmisses hfinds =>
    exact methodOrDefault_run_class hclass hmisses hfinds nofun
  | failsByDefault hmisses hfinds => exact methodOrDefault_run_default hmisses hfinds

theorem exists_selects (ev : Evaluator) (generic : String) (classes : List String) (env : EnvId)
    (table : Option EnvId) (s : Session) :
    ∃ selection t, ev.Selects generic classes env table s selection t := by
  obtain ⟨u, hmisses⟩ | ⟨i, outcome, t, hdecides, name, u, hname, hmisses, hfinds⟩ :=
    misses_or_stopsAt ev env table (classes.map (methodName generic)) s
  · obtain ⟨e | _ | method, t, hfinds⟩ := exists_finds ev env table (methodName generic "default") u
    · exact ⟨_, _, .failsByDefault hmisses hfinds⟩
    · exact ⟨_, _, .nothing (misses_append_iff.2 ⟨u, hmisses, .cons hfinds .nil⟩)⟩
    · exact ⟨_, _, .byDefault hmisses hfinds⟩
  · rw [List.getElem?_map] at hname
    obtain ⟨className, hclass, rfl⟩ := Option.map_eq_some_iff.1 hname
    rcases outcome with e | _ | method
    · exact ⟨_, _, .failsByClass hclass hmisses hfinds⟩
    · exact absurd rfl hdecides
    · exact ⟨_, _, .byClass hclass hmisses hfinds⟩

theorem methodOrDefault_run_iff {selection : Except Interrupt (Option SelectedMethod)} :
    ev.methodOrDefault generic classes env table s = (selection, t) ↔
      ev.Selects generic classes env table s selection t := by
  constructor
  · intro hrun
    obtain ⟨selection', t', hselects⟩ := exists_selects ev generic classes env table s
    cases hrun.symm.trans hselects.methodOrDefault_run
    exact hselects
  · exact Selects.methodOrDefault_run

theorem selectMethod_run {definitionEnv : Option EnvId}
    (htable : s.heap.tableFor definitionEnv = .ok table) :
    ev.selectMethod generic classes env definitionEnv s =
      ev.methodOrDefault generic classes env table s := by
  cases definitionEnv with
  | none =>
    cases htable
    rfl
  | some d => exact SessionM.bind_run_ok (SessionM.askHeap_run_ok htable) _

theorem selectMethod_run_stale {d : EnvId} (hstale : s.heap.contains d = false) :
    ev.selectMethod generic classes env (some d) s =
      (.error (.failure (.staleEnvironment d)), s) := by
  have htable : s.heap.methodsTable d = .error (.staleEnvironment d) := by
    rw [Heap.methodsTable, Heap.getLocal_of_stale hstale]
    rfl
  exact SessionM.bind_run_error (SessionM.askHeap_run_error htable) _

theorem Selects.error_finds (h : ev.Selects generic classes env table s (.error e) t) :
    ∃ names name u, ev.Misses env table names s u ∧ ev.Finds env table name u (.error e) t := by
  cases h with
  | failsByClass _ hmisses hfinds => exact ⟨_, _, _, hmisses, hfinds⟩
  | failsByDefault hmisses hfinds => exact ⟨_, _, _, hmisses, hfinds⟩

/-- Methods are selected for the first class that has one, and for each class what is visible is
    preferred to what is registered; for want of a class with a method the default is taken.  The
    selection fails only where the search breaks off: with a stale environment, with a promise that
    it had to force, or with more frames passed over than there are.  In a founded session it fails
    with a promise only, and the frames that it passes over are those around the environment of the
    call, from the innermost one outward. -/
theorem selectMethod_first (ev : Evaluator) (s : Session) (generic : String)
    (classes : List String) (env : EnvId) (definitionEnv : Option EnvId) :
    (∀ d, definitionEnv = some d → s.heap.contains d = false →
      ev.selectMethod generic classes env definitionEnv s =
        (.error (.failure (.staleEnvironment d)), s)) ∧
    ((∀ d, definitionEnv = some d → s.heap.contains d = true) →
      ∃ table, s.heap.tableFor definitionEnv = .ok table) ∧
    ∀ table, s.heap.tableFor definitionEnv = .ok table →
      (∀ selection t, ev.selectMethod generic classes env definitionEnv s = (selection, t) ↔
        ev.Selects generic classes env table s selection t) ∧
      (∀ e t, ev.selectMethod generic classes env definitionEnv s = (.error e, t) →
        ev.Breaks env t e) ∧
      ∀ fuel, ev = evaluator fuel → s.Founded → s.heap.contains env = true →
        (∃ frames, s.heap.chain env = .ok frames ∧ ∀ names u name ids next t,
          ev.Misses env table names s u → ev.Passes name (some env) u ids next t →
            ∃ rest, frames = ids ++ rest ∧ next = rest.head?) ∧
        ∀ e t, ev.selectMethod generic classes env definitionEnv s = (.error e, t) →
          ∃ promise u, ev.demand promise u = (.error e, t) := by
  refine ⟨?_, ?_, fun table htable => ⟨fun selection t => ?_, ?_, ?_⟩⟩
  · rintro d rfl hstale
    exact selectMethod_run_stale hstale
  · intro hlive
    cases definitionEnv with
    | none => exact ⟨none, rfl⟩
    | some d => exact Heap.exists_methodsTable (hlive d rfl)
  · rw [selectMethod_run htable]
    exact methodOrDefault_run_iff
  · intro e t hrun
    rw [selectMethod_run htable] at hrun
    obtain ⟨names, name, u, -, hfinds⟩ := (methodOrDefault_run_iff.1 hrun).error_finds
    exact hfinds.breaks
  · rintro fuel rfl hs henv
    have hev := isSafe_evaluator fuel
    obtain ⟨frames, hchain, hframes⟩ := hs.exists_chain henv
    have htable' := hs.contains_table htable
    refine ⟨⟨frames, hchain, fun names u name ids next t hmisses hpasses => ?_⟩, fun e t hrun => ?_⟩
    · have honward := hmisses.onward hev hs.safe hs.layered hframes htable'
      obtain ⟨-, rest, hrest, houtward⟩ :=
        hpasses.eq_append hev honward.safe (hframes.deepens honward.deepens)
      refine ⟨rest, hrest, ?_⟩
      cases houtward <;> rfl
    · rw [selectMethod_run htable] at hrun
      obtain ⟨names, name, u, hmisses, hfinds⟩ := (methodOrDefault_run_iff.1 hrun).error_finds
      exact hmisses.demand_of_error hs henv htable' hfinds

/-- With a method of `g` for `b` in the global environment and one for `a` registered with the base
    environment, the registered one is selected for an object of the classes `a` and `b`, and the
    other one without the table; for an object of class `c` there is none. -/
theorem selectMethod_first_registered :
    let method (n : Nat) : Value := .closure ⟨⟨n⟩, [], .null, ⟨1, 0⟩⟩
    let new := Session.initial {} .empty
    let s := (SessionM.registerMethod "g" "a" (method 100) ⟨0, 0⟩
      (new.bound ⟨1, 0⟩ ⟨"g.b"⟩ ⟨method 101, false⟩)).2
    let select (classes : List String) := (evaluator 1).selectMethod "g" classes ⟨1, 0⟩
    s.heap.tableFor (some ⟨0, 0⟩) = .ok (some ⟨2, 0⟩) ∧
    select ["a", "b"] (some ⟨0, 0⟩) s = (.ok (some ⟨method 100, ⟨"g.a"⟩, ["a", "b"]⟩), s) ∧
    select ["a", "b"] none s = (.ok (some ⟨method 101, ⟨"g.b"⟩, ["b"]⟩), s) ∧
    select [] (some ⟨9, 0⟩) s = (.error (.failure (.staleEnvironment ⟨9, 0⟩)), s) ∧
    new.Founded ∧ select ["c"] none new = (.ok none, new) ∧
    ∃ frames, new.heap.chain ⟨1, 0⟩ = .ok frames ∧ ∀ names u name ids next t,
      (evaluator 1).Misses ⟨1, 0⟩ none names new u →
      (evaluator 1).Passes name (some ⟨1, 0⟩) u ids next t →
        ∃ rest, frames = ids ++ rest ∧ next = rest.head? := by
  intro method new s select
  have hregistered : s.heap.tableFor (some ⟨0, 0⟩) = .ok (some ⟨2, 0⟩) := rfl
  have hunseen : (evaluator 1).Sees (methodName "g" "a") ⟨1, 0⟩ s (.ok none) s :=
    .nothing (.outward rfl (.unbound rfl rfl) (.outward rfl (.unbound rfl rfl) .here)) (by decide)
  have hfirst : (evaluator 1).Finds ⟨1, 0⟩ (some ⟨2, 0⟩) (methodName "g" "a") s
      (.ok (some (method 100))) s :=
    .registered hunseen rfl (.function rfl rfl rfl rfl)
  have hsecond : (evaluator 1).Finds ⟨1, 0⟩ none (methodName "g" "b") s
      (.ok (some (method 101))) s :=
    .visible (.nearest .here (by decide) (.function rfl rfl rfl rfl))
  have hnew (name : Symbol) (hglobal : (new.heap.frame? ⟨1, 0⟩).bind (·.get? name) = none)
      (hbase : (new.heap.frame? ⟨0, 0⟩).bind (·.get? name) = none) :
      (evaluator 1).Finds ⟨1, 0⟩ none name new (.ok none) new := by
    have hpasses : (evaluator 1).Passes name (some ⟨1, 0⟩) new [⟨1, 0⟩, ⟨0, 0⟩] none new :=
      .outward rfl (.unbound rfl hglobal) (.outward rfl (.unbound rfl hbase) .here)
    exact .nowhere (.nothing hpasses (by decide)) rfl
  obtain ⟨-, -, hselects⟩ := selectMethod_first (evaluator 1) s "g" ["a", "b"] ⟨1, 0⟩ (some ⟨0, 0⟩)
  obtain ⟨-, -, hselects'⟩ := selectMethod_first (evaluator 1) s "g" ["a", "b"] ⟨1, 0⟩ none
  obtain ⟨hstale, -⟩ := selectMethod_first (evaluator 1) s "g" [] ⟨1, 0⟩ (some ⟨9, 0⟩)
  obtain ⟨-, -, hnone⟩ := selectMethod_first (evaluator 1) new "g" ["c"] ⟨1, 0⟩ none
  refine ⟨hregistered, ?_, ?_, hstale _ rfl rfl, .initial _ _, ?_,
    ((hnone none rfl).2.2 1 rfl (.initial _ _) rfl).1⟩
  · exact ((hselects _ hregistered).1 _ _).2 (.byClass (i := 0) rfl .nil hfirst)
  · exact ((hselects' none rfl).1 _ _).2
      (.byClass (i := 1) rfl (.cons (.nowhere hunseen rfl) .nil) hsecond)
  · exact ((hnone none rfl).1 _ _).2
      (.nothing (.cons (hnew _ rfl rfl) (.cons (hnew _ rfl rfl) .nil)))

end Evaluator

end CallByNeed
