import CallByNeed.Dispatch.Selection
import CallByNeed.Proofs.Methods.Tables
import CallByNeed.Proofs.Resolution

/-!
# Searching for methods

A search for a method looks at one frame after the other.  What a frame binds may
have to be forced, which may run the program, so every look has a session that it
begins in and one that it leaves (`Evaluator.Looks`).  From the environment of the
call outward, frames without a function of the name are passed over
(`Evaluator.Passes`), and the first look that comes to something else ends the
search there (`Evaluator.Sees`).  A methods table is looked at only after that has
come to nothing (`Evaluator.Finds`), and the next name only after this one was
not found (`Evaluator.Misses`).

These relations do not mention the functions that search.  The searches do exactly
what the relations say: `function?_run_iff_sees`, `method?_run_iff_finds` and, for a list of
names, `firstMethod_run_iff` and `firstMethod_run_none_iff`.
-/

namespace CallByNeed

namespace Evaluator

variable (ev : Evaluator)

/-! ## What a search comes to -/

/-- One look at what a frame binds the name to: a function; or something else, or nothing. -/
inductive Looks (name : Symbol) (id : EnvId) (s : Session) :
    Except Interrupt (Option Value) → Session → Prop where
  | stale (hframe : s.heap.frame? id = none) :
      Looks name id s (.error (.failure (.staleEnvironment id))) s
  | unbound {f : Frame} (hframe : s.heap.frame? id = some f) (hget : f.get? name = none) :
      Looks name id s (.ok none) s
  | function {f : Frame} {b : Binding} {value : Value} {t : Session}
      (hframe : s.heap.frame? id = some f) (hget : f.get? name = some b)
      (hforce : ev.force b.value s = (.ok value, t)) (hfunction : value.isFunction = true) :
      Looks name id s (.ok (some value)) t
  | other {f : Frame} {b : Binding} {value : Value} {t : Session}
      (hframe : s.heap.frame? id = some f) (hget : f.get? name = some b)
      (hforce : ev.force b.value s = (.ok value, t)) (hfunction : value.isFunction = false) :
      Looks name id s (.ok none) t
  | fails {f : Frame} {b : Binding} {e : Interrupt} {t : Session}
      (hframe : s.heap.frame? id = some f) (hget : f.get? name = some b)
      (hforce : ev.force b.value s = (.error e, t)) : Looks name id s (.error e) t

/-- From `start` outward these frames are passed over, one after the other, since a look at each of
    them comes to nothing; `next` comes after them. -/
inductive Passes (name : Symbol) :
    Option EnvId → Session → List EnvId → Option EnvId → Session → Prop where
  | here {start : Option EnvId} {s : Session} : Passes name start s [] start s
  | outward {id : EnvId} {f : Frame} {ids : List EnvId} {next : Option EnvId} {s t u : Session}
      (hframe : s.heap.frame? id = some f) (hlook : ev.Looks name id s (.ok none) t)
      (hpasses : Passes name f.parent t ids next u) : Passes name (some id) s (id :: ids) next u

/-- What is seen of the name from `start` outward: the function in the nearest frame that has one,
    or nothing; or the look at a frame fails.  No more than `limit` frames are looked at. -/
inductive SeesWithin (name : Symbol) (limit : Nat) (start : Option EnvId) (s : Session) :
    Except Interrupt (Option Value) → Session → Prop where
  | nearest {ids : List EnvId} {id : EnvId} {function : Value} {t u : Session}
      (hpasses : ev.Passes name start s ids (some id) t) (hlimit : ids.length < limit)
      (hlook : ev.Looks name id t (.ok (some function)) u) :
      SeesWithin name limit start s (.ok (some function)) u
  | nothing {ids : List EnvId} {t : Session} (hpasses : ev.Passes name start s ids none t)
      (hlimit : ids.length ≤ limit) : SeesWithin name limit start s (.ok none) t
  | fails {ids : List EnvId} {id : EnvId} {e : Interrupt} {t u : Session}
      (hpasses : ev.Passes name start s ids (some id) t) (hlimit : ids.length < limit)
      (hlook : ev.Looks name id t (.error e) u) : SeesWithin name limit start s (.error e) u
  | beyond {ids : List EnvId} {id : EnvId} {t : Session}
      (hpasses : ev.Passes name start s ids (some id) t) (hlimit : ids.length = limit) :
      SeesWithin name limit start s (.error .exhausted) t

/-- What is seen of the name from an environment.  Frames are passed over as long as there are not
    more of them than slots. -/
def Sees (name : Symbol) (env : EnvId) (s : Session) : Except Interrupt (Option Value) → Session →
    Prop :=
  ev.SeesWithin name (s.heap.slots.size + 1) (some env) s

/-- What is found under one name: a function that is visible from `env`, or else what a look at the
    methods table comes to, if there is a table. -/
inductive Finds (env : EnvId) (table : Option EnvId) (name : Symbol) (s : Session) :
    Except Interrupt (Option Value) → Session → Prop where
  | visible {function : Value} {t : Session} (hsees : ev.Sees name env s (.ok (some function)) t) :
      Finds env table name s (.ok (some function)) t
  | fails {e : Interrupt} {t : Session} (hsees : ev.Sees name env s (.error e) t) :
      Finds env table name s (.error e) t
  | nowhere {t : Session} (hsees : ev.Sees name env s (.ok none) t) (htable : table = none) :
      Finds env table name s (.ok none) t
  | registered {id : EnvId} {outcome : Except Interrupt (Option Value)} {t u : Session}
      (hsees : ev.Sees name env s (.ok none) t) (htable : table = some id)
      (hlook : ev.Looks name id t outcome u) : Finds env table name s outcome u

/-- The names are tried one after the other, and nothing is found under any of them. -/
inductive Misses (env : EnvId) (table : Option EnvId) : List Symbol → Session → Session → Prop where
  | nil {s : Session} : Misses env table [] s s
  | cons {name : Symbol} {names : List Symbol} {s t u : Session}
      (hfinds : ev.Finds env table name s (.ok none) t) (hmisses : Misses env table names t u) :
      Misses env table (name :: names) s u

/-- The search under these names ends at position `i`: nothing is found under the names before, and
    there a method is found or the search fails. -/
def StopsAt (env : EnvId) (table : Option EnvId) (names : List Symbol) (i : Nat) (s : Session)
    (outcome : Except Interrupt (Option Value)) (t : Session) : Prop :=
  outcome ≠ .ok none ∧ ∃ name u, names[i]? = some name ∧ ev.Misses env table (names.take i) s u ∧
    ev.Finds env table name u outcome t

/-- What may break a search off: a frame that is gone, a promise that cannot be forced, or that more
    frames were passed over than there are slots. -/
inductive Breaks (env : EnvId) (t : Session) : Interrupt → Prop where
  | stale {id : EnvId} (hframe : t.heap.frame? id = none) :
      Breaks env t (.failure (.staleEnvironment id))
  | promise {id : PromiseId} {s : Session} {e : Interrupt}
      (hdemand : ev.demand id s = (.error e, t)) : Breaks env t e
  | overrun {name : Symbol} {s : Session} {ids : List EnvId} {id : EnvId}
      (hpasses : ev.Passes name (some env) s ids (some id) t)
      (hmore : s.heap.slots.size < ids.length) : Breaks env t .exhausted

variable {ev} {s t u : Session} {name : Symbol} {id env : EnvId} {table : Option EnvId}
  {outcome : Except Interrupt (Option Value)} {e : Interrupt}

/-! ## Looking at one frame -/

theorem exists_looks (ev : Evaluator) (name : Symbol) (id : EnvId) (s : Session) :
    ∃ outcome t, ev.Looks name id s outcome t := by
  cases hframe : s.heap.frame? id with
  | none => exact ⟨_, _, .stale hframe⟩
  | some f =>
    cases hget : f.get? name with
    | none => exact ⟨_, _, .unbound hframe hget⟩
    | some b =>
      rcases hforce : ev.force b.value s with ⟨e | value, t⟩
      · exact ⟨_, _, .fails hframe hget hforce⟩
      · cases hfunction : value.isFunction with
        | true => exact ⟨_, _, .function hframe hget hforce hfunction⟩
        | false => exact ⟨_, _, .other hframe hget hforce hfunction⟩

/-- A look fails at a frame that is gone, or with the promise that is bound there. -/
theorem Looks.error_cases (h : ev.Looks name id s (.error e) t) :
    (s.heap.frame? id = none ∧ e = .failure (.staleEnvironment id) ∧ t = s) ∨
      ∃ promise, ev.demand promise s = (.error e, t) := by
  cases h with
  | stale hframe => exact .inl ⟨hframe, rfl, rfl⟩
  | @fails _ b _ _ _ _ hforce =>
    refine .inr ?_
    cases hvalue : b.value with
    | promise promise =>
      rw [hvalue] at hforce
      exact ⟨promise, hforce⟩
    | _ =>
      rw [hvalue] at hforce
      cases hforce

theorem Looks.breaks (h : ev.Looks name id s (.error e) t) (env : EnvId) : ev.Breaks env t e := by
  obtain ⟨hframe, rfl, rfl⟩ | ⟨promise, hdemand⟩ := h.error_cases
  · exact .stale hframe
  · exact .promise hdemand

/-- A look at a frame that is there fails with a promise only. -/
theorem Looks.demand_of_error (hlive : s.heap.contains id = true)
    (h : ev.Looks name id s (.error e) t) : ∃ promise v, ev.demand promise v = (.error e, t) := by
  obtain ⟨hframe, -⟩ | ⟨promise, hdemand⟩ := h.error_cases
  · cases hlive.symm.trans (Heap.frame?_eq_none_iff.1 hframe)
  · exact ⟨promise, s, hdemand⟩

/-- Where a look comes to nothing, the search goes on in the parent that the frame had before. -/
theorem functionWithin_run_other {f : Frame} (hlook : ev.Looks name id s (.ok none) t)
    (hframe : s.heap.frame? id = some f) (limit : Nat) :
    ev.functionWithin name (limit + 1) (some id) s = ev.functionWithin name limit f.parent t := by
  cases hlook with
  | unbound hframe' hget =>
    cases hframe.symm.trans hframe'
    exact ev.functionWithin_run_unbound hframe hget
  | other hframe' hget hforce hfunction =>
    cases hframe.symm.trans hframe'
    rw [ev.functionWithin_run_bound hframe hget, SessionM.bind_run_ok hforce, hfunction]
    rfl

theorem functionWithin_run_decided (hlook : ev.Looks name id s outcome t)
    (hdecided : outcome ≠ .ok none) (limit : Nat) :
    ev.functionWithin name (limit + 1) (some id) s = (outcome, t) := by
  cases hlook with
  | stale hframe => exact ev.functionWithin_run_stale hframe
  | unbound => exact absurd rfl hdecided
  | function hframe hget hforce hfunction =>
    rw [ev.functionWithin_run_bound hframe hget, SessionM.bind_run_ok hforce, hfunction]
    rfl
  | other => exact absurd rfl hdecided
  | fails hframe hget hforce =>
    rw [ev.functionWithin_run_bound hframe hget]
    exact SessionM.bind_run_error hforce _

/-! ## Looking outward -/

theorem Passes.functionWithin_run {start next : Option EnvId} {ids : List EnvId}
    (h : ev.Passes name start s ids next t) (limit : Nat) :
    ev.functionWithin name (ids.length + limit) start s = ev.functionWithin name limit next t := by
  -- every frame that is passed over uses up one of those that may be looked at
  induction h with
  | here => rw [List.length_nil, Nat.zero_add]
  | outward hframe hlook _ ih =>
    rw [List.length_cons, Nat.add_right_comm, functionWithin_run_other hlook hframe, ih]

theorem SeesWithin.outward {f : Frame} {limit : Nat} (hframe : s.heap.frame? id = some f)
    (hlook : ev.Looks name id s (.ok none) t)
    (h : ev.SeesWithin name limit f.parent t outcome u) :
    ev.SeesWithin name (limit + 1) (some id) s outcome u := by
  cases h with
  | nearest hpasses hlimit hlook' =>
    exact .nearest (.outward hframe hlook hpasses) (Nat.succ_lt_succ hlimit) hlook'
  | nothing hpasses hlimit =>
    exact .nothing (.outward hframe hlook hpasses) (Nat.succ_le_succ hlimit)
  | fails hpasses hlimit hlook' =>
    exact .fails (.outward hframe hlook hpasses) (Nat.succ_lt_succ hlimit) hlook'
  | beyond hpasses hlimit =>
    exact .beyond (.outward hframe hlook hpasses) (congrArg Nat.succ hlimit)

theorem exists_seesWithin (ev : Evaluator) (name : Symbol) (limit : Nat) (start : Option EnvId)
    (s : Session) : ∃ outcome t, ev.SeesWithin name limit start s outcome t := by
  induction limit generalizing start s with
  | zero =>
    cases start with
    | none => exact ⟨_, _, .nothing .here (Nat.le_refl 0)⟩
    | some id => exact ⟨_, _, .beyond .here rfl⟩
  | succ limit ih =>
    cases start with
    | none => exact ⟨_, _, .nothing .here (Nat.zero_le _)⟩
    | some id =>
      obtain ⟨outcome, t, hlook⟩ := exists_looks ev name id s
      -- the look decides here, or the search goes on at the parent with one step less
      rcases outcome with e | _ | function
      · exact ⟨_, _, .fails .here (Nat.succ_pos limit) hlook⟩
      · obtain ⟨f, hframe⟩ : ∃ f, s.heap.frame? id = some f := by
          cases hlook <;> exact ⟨_, by assumption⟩
        obtain ⟨outcome, u, hsees⟩ := ih f.parent t
        exact ⟨_, _, hsees.outward hframe hlook⟩
      · exact ⟨_, _, .nearest .here (Nat.succ_pos limit) hlook⟩

theorem SeesWithin.functionWithin_run {limit : Nat} {start : Option EnvId}
    (h : ev.SeesWithin name limit start s outcome t) :
    ev.functionWithin name limit start s = (outcome, t) := by
  -- the frames passed over use up the limit by their number
  cases h with
  | nearest hpasses hlimit hlook =>
    obtain ⟨more, rfl⟩ := Nat.exists_eq_add_of_lt hlimit
    rw [Nat.add_assoc, hpasses.functionWithin_run, functionWithin_run_decided hlook nofun]
  | nothing hpasses hlimit =>
    obtain ⟨more, rfl⟩ := Nat.exists_eq_add_of_le hlimit
    rw [hpasses.functionWithin_run]
    cases more <;> rfl
  | fails hpasses hlimit hlook =>
    obtain ⟨more, rfl⟩ := Nat.exists_eq_add_of_lt hlimit
    rw [Nat.add_assoc, hpasses.functionWithin_run, functionWithin_run_decided hlook nofun]
  | beyond hpasses hlimit =>
    have hrun := hpasses.functionWithin_run 0
    rw [Nat.add_zero, hlimit] at hrun
    exact hrun

/-- Looking for a function comes to what is seen from the environment. -/
theorem function?_run_iff_sees :
    ev.function? env name s = (outcome, t) ↔ ev.Sees name env s outcome t := by
  constructor
  · intro hrun
    -- something is seen, and the run comes to that, so it was that
    obtain ⟨outcome', t', hsees⟩ :=
      exists_seesWithin ev name (s.heap.slots.size + 1) (some env) s
    cases hrun.symm.trans hsees.functionWithin_run
    exact hsees
  · exact SeesWithin.functionWithin_run

theorem Sees.breaks (h : ev.Sees name env s (.error e) t) : ev.Breaks env t e := by
  cases h with
  | fails _ _ hlook => exact hlook.breaks env
  | beyond hpasses hlimit => exact .overrun hpasses (by omega)

/-! ## One name -/

theorem Finds.breaks (h : ev.Finds env table name s (.error e) t) : ev.Breaks env t e := by
  cases h with
  | fails hsees => exact hsees.breaks
  | registered _ _ hlook => exact hlook.breaks env

/-- A look at a methods table asks for what is bound there and forces that. -/
theorem Looks.getLocal_run (h : ev.Looks name id s outcome t) :
    (do
      match ← SessionM.askHeap fun h => h.getLocal id name with
      | none => return none
      | some value =>
        let value ← ev.force value
        return if value.isFunction then some value else none : SessionM (Option Value)) s =
      (outcome, t) := by
  have hask {f : Frame} (hframe : s.heap.frame? id = some f) :
      SessionM.askHeap (fun h => h.getLocal id name) s = (.ok ((f.get? name).map (·.value)), s) :=
    SessionM.askHeap_run_ok (Heap.getLocal_of_frame? hframe name)
  cases h with
  | stale hframe =>
    have hstale := Heap.frame?_eq_none_iff.1 hframe
    exact SessionM.bind_run_error
      (SessionM.askHeap_run_error (Heap.getLocal_of_stale hstale name)) _
  | unbound hframe hget =>
    rw [SessionM.bind_run_ok (hask hframe), hget]
    rfl
  | function hframe hget hforce hfunction =>
    rw [SessionM.bind_run_ok (hask hframe), hget]
    exact (SessionM.bind_run_ok hforce _).trans (by rw [hfunction]; rfl)
  | other hframe hget hforce hfunction =>
    rw [SessionM.bind_run_ok (hask hframe), hget]
    exact (SessionM.bind_run_ok hforce _).trans (by rw [hfunction]; rfl)
  | fails hframe hget hforce =>
    rw [SessionM.bind_run_ok (hask hframe), hget]
    exact SessionM.bind_run_error hforce _

theorem Finds.method?_run (h : ev.Finds env table name s outcome t) :
    ev.method? name env table s = (outcome, t) := by
  rw [method?]
  cases h with
  | visible hsees =>
    rw [SessionM.bind_run_ok (function?_run_iff_sees.2 hsees)]
    rfl
  | fails hsees => exact SessionM.bind_run_error (function?_run_iff_sees.2 hsees) _
  | nowhere hsees htable =>
    subst htable
    rw [SessionM.bind_run_ok (function?_run_iff_sees.2 hsees)]
    rfl
  | registered hsees htable hlook =>
    subst htable
    rw [SessionM.bind_run_ok (function?_run_iff_sees.2 hsees)]
    exact hlook.getLocal_run

theorem exists_finds (ev : Evaluator) (env : EnvId) (table : Option EnvId) (name : Symbol)
    (s : Session) : ∃ outcome t, ev.Finds env table name s outcome t := by
  obtain ⟨e | _ | function, t, hsees⟩ :=
    exists_seesWithin ev name (s.heap.slots.size + 1) (some env) s
  · exact ⟨_, _, .fails hsees⟩
  · cases htable : table with
    | none => exact ⟨_, _, .nowhere hsees rfl⟩
    | some id =>
      obtain ⟨outcome, u, hlook⟩ := exists_looks ev name id t
      exact ⟨_, _, .registered hsees rfl hlook⟩
  · exact ⟨_, _, .visible hsees⟩

theorem method?_run_iff_finds : ev.method? name env table s = (outcome, t) ↔
    ev.Finds env table name s outcome t := by
  constructor
  · intro hrun
    obtain ⟨outcome', t', hfinds⟩ := exists_finds ev env table name s
    cases hrun.symm.trans hfinds.method?_run
    exact hfinds
  · exact Finds.method?_run

/-! ## One name after the other -/

theorem misses_append_iff {names rest : List Symbol} : ev.Misses env table (names ++ rest) s u ↔
    ∃ t, ev.Misses env table names s t ∧ ev.Misses env table rest t u := by
  induction names generalizing s with
  | nil =>
    refine ⟨fun h => ⟨s, .nil, h⟩, ?_⟩
    rintro ⟨t, hnil, h⟩
    cases hnil
    exact h
  | cons name names ih =>
    constructor
    · intro h
      cases h with
      | cons hfinds hmisses =>
        obtain ⟨t, hnames, hrest⟩ := ih.1 hmisses
        exact ⟨t, .cons hfinds hnames, hrest⟩
    · rintro ⟨t, hnames, hrest⟩
      cases hnames with
      | cons hfinds hmisses => exact .cons hfinds (ih.2 ⟨t, hmisses, hrest⟩)

/-- Either nothing is found under any of the names, or the search ends with one of them. -/
theorem misses_or_stopsAt (ev : Evaluator) (env : EnvId) (table : Option EnvId)
    (names : List Symbol) (s : Session) :
    (∃ t, ev.Misses env table names s t) ∨
      ∃ i outcome t, ev.StopsAt env table names i s outcome t := by
  induction names generalizing s with
  | nil => exact .inl ⟨s, .nil⟩
  | cons name rest ih =>
    obtain ⟨outcome, t, hfinds⟩ := exists_finds ev env table name s
    -- a name under which nothing is found is passed over, any other outcome ends the search
    by_cases hdecides : outcome = .ok none
    · subst hdecides
      obtain ⟨u, hmisses⟩ | ⟨i, outcome, u, hdecides, name', v, hname, hmisses, hfinds'⟩ := ih t
      · exact .inl ⟨u, .cons hfinds hmisses⟩
      · exact .inr ⟨i + 1, outcome, u, hdecides, name', v, hname, .cons hfinds hmisses, hfinds'⟩
    · exact .inr ⟨0, outcome, t, hdecides, name, s, rfl, .nil, hfinds⟩

variable {names : List Symbol}

theorem Misses.firstMethod_run (h : ev.Misses env table names s t) (rest : List Symbol) :
    ev.firstMethod env table (names ++ rest) s = ev.firstMethod env table rest t := by
  induction h with
  | nil => rfl
  | cons hfinds _ ih =>
    rw [List.cons_append, firstMethod, SessionM.bind_run_ok hfinds.method?_run]
    exact ih

/-- The first name under which something is found ends the search, whatever comes after it. -/
theorem Misses.firstMethod_run_finds (h : ev.Misses env table names s u)
    (hfinds : ev.Finds env table name u outcome t) (hdecides : outcome ≠ .ok none)
    (later : List Symbol) :
    ev.firstMethod env table (names ++ name :: later) s = (outcome, t) := by
  rw [h.firstMethod_run, firstMethod]
  rcases outcome with e | _ | method
  · exact SessionM.bind_run_error hfinds.method?_run _
  · exact absurd rfl hdecides
  · rw [SessionM.bind_run_ok hfinds.method?_run]
    rfl

theorem StopsAt.firstMethod_run {i : Nat} (h : ev.StopsAt env table names i s outcome t) :
    ev.firstMethod env table names s = (outcome, t) := by
  obtain ⟨hdecides, name, u, hname, hmisses, hfinds⟩ := h
  obtain ⟨hi, hname⟩ := List.getElem?_eq_some_iff.1 hname
  rw [← List.take_append_drop i names, List.drop_eq_getElem_cons hi, hname]
  exact hmisses.firstMethod_run_finds hfinds hdecides _

theorem firstMethod_run_none_iff :
    ev.firstMethod env table names s = (.ok none, t) ↔ ev.Misses env table names s t := by
  constructor
  · intro hrun
    obtain ⟨u, hmisses⟩ | ⟨i, outcome, u, hstops⟩ := misses_or_stopsAt ev env table names s
    · have hrun' := hmisses.firstMethod_run []
      rw [List.append_nil, hrun] at hrun'
      cases hrun'
      exact hmisses
    · cases hrun.symm.trans hstops.firstMethod_run
      exact absurd rfl hstops.1
  · intro hmisses
    rw [← List.append_nil names, hmisses.firstMethod_run]
    rfl

theorem firstMethod_run_iff (hdecides : outcome ≠ .ok none) :
    ev.firstMethod env table names s = (outcome, t) ↔
      ∃ i, ev.StopsAt env table names i s outcome t := by
  constructor
  · intro hrun
    obtain ⟨u, hmisses⟩ | ⟨i, outcome', u, hstops⟩ := misses_or_stopsAt ev env table names s
    · cases hrun.symm.trans (firstMethod_run_none_iff.2 hmisses)
      exact absurd rfl hdecides
    · cases hrun.symm.trans hstops.firstMethod_run
      exact ⟨i, hstops⟩
  · rintro ⟨i, hstops⟩
    exact hstops.firstMethod_run

end Evaluator

end CallByNeed
