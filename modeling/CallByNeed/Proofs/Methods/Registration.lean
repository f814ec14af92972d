import CallByNeed.Proofs.Methods.Tables
import CallByNeed.Proofs.Restrained.Discipline

/-!
# What has been registered

A log lists the methods registered for the environments that are there, the
latest first.  The methods tables are as the log says (`Heap.Recorded`): an
environment has a table if a method was registered for it, no two have the same
one, and under each name the table binds the method that was registered last.

From step to step a session either registers one more method or leaves the tables
alone, and then the log loses what was registered for environments that are
freed (`Session.Logs`).  Both keep the tables as the log says
(`Session.Logs.recorded`).
-/

namespace CallByNeed

/-- A method of a generic for a class, registered for an environment. -/
structure Registration where
  generic : String
  className : String
  method : Value
  env : EnvId

namespace Registration

/-- The name that the method has in the table. -/
def name (r : Registration) : Symbol := methodName r.generic r.className

def register (r : Registration) : SessionM Unit :=
  SessionM.registerMethod r.generic r.className r.method r.env

end Registration

/-- The method registered last for an environment under a name. -/
def lastMethod (log : List Registration) (env : EnvId) (name : Symbol) : Option Value :=
  (log.find? fun r => r.env == env && r.name == name).map (·.method)

variable {log : List Registration} {env table : EnvId} {name : Symbol}

theorem lastMethod_cons (r : Registration) (log : List Registration) (env : EnvId)
    (name : Symbol) : lastMethod (r :: log) env name =
      if r.env = env ∧ r.name = name then some r.method else lastMethod log env name := by
  by_cases hr : r.env = env ∧ r.name = name
  · simp [lastMethod, hr.1, hr.2]
  · rw [if_neg hr]
    have hskip : (r.env == env && r.name == name) = false := by
      simpa [Bool.eq_false_iff] using hr
    rw [lastMethod, List.find?_cons, hskip]
    rfl

/-- What was registered for other environments does not matter. -/
theorem lastMethod_filter {p : Registration → Bool} (hp : ∀ r ∈ log, r.env = env → p r = true) :
    lastMethod (log.filter p) env name = lastMethod log env name := by
  induction log with
  | nil => rfl
  | cons r rest ih =>
    have hrest := ih fun r' hr' => hp r' (.tail _ hr')
    rw [lastMethod_cons, ← hrest]
    cases hpr : p r with
    | true => rw [List.filter_cons_of_pos hpr, lastMethod_cons]
    | false =>
      have hne : r.env ≠ env := fun he =>
        Bool.false_ne_true (hpr.symm.trans (hp r List.mem_cons_self he))
      rw [List.filter_cons_of_neg (by simp [hpr]), if_neg (fun h => hne h.1)]

theorem lastMethod_eq_none (h : ∀ r ∈ log, r.env ≠ env) : lastMethod log env name = none := by
  rw [lastMethod, Option.map_eq_none_iff, List.find?_eq_none]
  intro r hr
  simp [h r hr]

namespace Heap

/-- The methods tables are what registering has made of them. -/
structure Recorded (h : Heap) (log : List Registration) : Prop where
  live : ∀ r ∈ log, h.contains r.env = true
  table : ∀ {env}, h.contains env = true →
    ((∃ table, h.methodsTable env = .ok (some table)) ↔ ∃ r ∈ log, r.env = env)
  tableLive : ∀ {env table}, h.methodsTable env = .ok (some table) → h.contains table = true
  /-- No two environments have the same table. -/
  apart : ∀ {env other table}, h.methodsTable env = .ok (some table) →
    h.methodsTable other = .ok (some table) → env = other
  method : ∀ {env table name}, h.methodsTable env = .ok (some table) → name ≠ methodsTableName →
    h.getLocal table name = .ok (lastMethod log env name)

/-- Every environment that is there afterwards has the table that it had, or none if it is new, and
    no method in a table is another one. -/
structure KeepsTables (h h' : Heap) : Prop where
  same : ∀ {env}, h.contains env = true → h'.contains env = true →
    h'.methodsTable env = h.methodsTable env
  fresh : ∀ {env}, h.contains env = false → h'.contains env = true → h'.methodsTable env = .ok none
  method : ∀ {env table name}, h.methodsTable env = .ok (some table) → h'.contains env = true →
    name ≠ methodsTableName → h'.getLocal table name = h.getLocal table name

variable {h h' : Heap}

namespace KeepsTables

theorem of_eq (heq : h' = h) : h.KeepsTables h' := by
  subst heq
  exact ⟨fun _ _ => rfl, fun hstale hlive => absurd (hstale.symm.trans hlive) Bool.false_ne_true,
    fun _ _ _ => rfl⟩

/-- Whoever has a table afterwards had it before. -/
theorem before (hkeeps : h.KeepsTables h') (htable : h'.methodsTable env = .ok (some table)) :
    h.methodsTable env = .ok (some table) := by
  have hlive := contains_of_methodsTable htable
  cases hold : h.contains env with
  | true => rw [← hkeeps.same hold hlive, htable]
  | false => cases (hkeeps.fresh hold hlive).symm.trans htable

end KeepsTables

theorem Recorded.keeps (hrecorded : h.Recorded log) (hkeeps : h.KeepsTables h') :
    h'.Recorded (log.filter fun r => h'.contains r.env) := by
  have hold {env : EnvId} (hlive : h'.contains env = true) :
      (∃ r ∈ log.filter fun r => h'.contains r.env, r.env = env) ↔ ∃ r ∈ log, r.env = env := by
    constructor
    · rintro ⟨r, hr, rfl⟩
      exact ⟨r, (List.mem_filter.1 hr).1, rfl⟩
    · rintro ⟨r, hr, rfl⟩
      exact ⟨r, List.mem_filter.2 ⟨hr, hlive⟩, rfl⟩
  have hmethod {env table : EnvId} {name : Symbol}
      (htable : h'.methodsTable env = .ok (some table)) (hname : name ≠ methodsTableName) :
      h'.getLocal table name =
        .ok (lastMethod (log.filter fun r => h'.contains r.env) env name) := by
    have hlive := contains_of_methodsTable htable
    have hbefore := hkeeps.before htable
    rw [hkeeps.method hbefore hlive hname, hrecorded.method hbefore hname,
      lastMethod_filter fun r _ hr => hr ▸ hlive]
  constructor
  case live => exact fun r hr => (List.mem_filter.1 hr).2
  case table =>
    intro env hlive
    rw [hold hlive]
    cases hthere : h.contains env with
    | true => rw [hkeeps.same hthere hlive, hrecorded.table hthere]
    -- an environment made since has no table, and no registration that is left is in it
    | false =>
      rw [hkeeps.fresh hthere hlive]
      refine iff_of_false (fun ⟨_, h⟩ => nomatch h) ?_
      rintro ⟨r, hr, rfl⟩
      exact Bool.false_ne_true (hthere.symm.trans (hrecorded.live r hr))
  case tableLive =>
    have hother : Symbol.ellipsis ≠ methodsTableName := by decide
    exact fun _ _ htable => contains_of_getLocal (hmethod htable hother)
  case apart => exact fun h₁ h₂ => hrecorded.apart (hkeeps.before h₁) (hkeeps.before h₂)
  case method => exact hmethod

end Heap

/-! ## Registering one more -/

section

open Session

variable {s t : Session}

/-- What registering a method for an environment leaves as it is: the tables of the others, what is
    in them, and which frames are there. -/
structure Session.SparesOthers (s t : Session) (env : EnvId) : Prop where
  live : ∀ {id}, s.heap.contains id = true → t.heap.contains id = true
  same : ∀ {other}, s.heap.contains other = true → other ≠ env →
    t.heap.methodsTable other = s.heap.methodsTable other
  method : ∀ {other table name}, s.heap.methodsTable other = .ok (some table) → other ≠ env →
    name ≠ methodsTableName → t.heap.getLocal table name = s.heap.getLocal table name

/-- The session has registered a method: it is in the table of its environment, and no other table
    has changed. -/
structure Registration.Registers (r : Registration) (log : List Registration) (s t : Session) :
    Prop where
  wellFormed : t.heap.WellFormed
  ages : s.heap.Ages t.heap
  stack : t.stack = s.stack
  recorded : t.heap.Recorded (r :: log)
  spares : s.SparesOthers t r.env
  /-- A table that is there is used. -/
  same : ∀ {table}, s.heap.methodsTable r.env = .ok (some table) →
    t.heap.methodsTable r.env = .ok (some table)

namespace Registration

variable {r : Registration}

/-- The method is in the table of its environment, where everything else is as the log says, and the
    other tables are as they were. -/
structure Filed (r : Registration) (log : List Registration) (table : EnvId) (s t : Session) :
    Prop where
  live : ∀ {id}, s.heap.contains id = true → t.heap.contains id = true
  own : t.heap.methodsTable r.env = .ok (some table)
  tableLive : t.heap.contains table = true
  entries : ∀ {name}, name ≠ methodsTableName →
    t.heap.getLocal table name = .ok (lastMethod (r :: log) r.env name)
  unshared : ∀ {other}, s.heap.methodsTable other = .ok (some table) → other = r.env
  same : ∀ {other}, s.heap.contains other = true → other ≠ r.env →
    t.heap.methodsTable other = s.heap.methodsTable other
  fresh : ∀ {other table'}, s.heap.contains other = false →
    t.heap.methodsTable other ≠ .ok (some table')
  method : ∀ {other table' name}, s.heap.methodsTable other = .ok (some table') → other ≠ r.env →
    name ≠ methodsTableName → t.heap.getLocal table' name = s.heap.getLocal table' name

namespace Filed

theorem spares (h : r.Filed log table s t) : s.SparesOthers t r.env := ⟨h.live, h.same, h.method⟩

/-- Whoever has a table afterwards is the environment of the method, or had that table before. -/
theorem owner (h : r.Filed log table s t) {id table' : EnvId}
    (htable : t.heap.methodsTable id = .ok (some table')) :
    (id = r.env ∧ table' = table) ∨
      (id ≠ r.env ∧ s.heap.methodsTable id = .ok (some table')) := by
  by_cases hid : id = r.env
  · subst hid
    exact .inl ⟨rfl, by simpa using htable.symm.trans h.own⟩
  · cases hthere : s.heap.contains id with
    | true => exact .inr ⟨hid, (h.same hthere hid).symm.trans htable⟩
    | false => exact absurd htable (h.fresh hthere)

theorem recorded (h : r.Filed log table s t) (hrecorded : s.heap.Recorded log)
    (hlive : s.heap.contains r.env = true) : t.heap.Recorded (r :: log) := by
  constructor
  case live =>
    exact List.forall_mem_cons.2 ⟨h.live hlive, fun r' hr' => h.live (hrecorded.live r' hr')⟩
  case table =>
    intro id _
    simp only [List.mem_cons, exists_eq_or_imp]
    constructor
    -- a table is the one of this registration, or was there before and is of an earlier one
    · rintro ⟨table', htable⟩
      obtain ⟨rfl, -⟩ | ⟨-, hbefore⟩ := h.owner htable
      · exact .inl rfl
      · exact .inr ((hrecorded.table (Heap.contains_of_methodsTable hbefore)).1 ⟨_, hbefore⟩)
    · rintro (rfl | ⟨r', hr', rfl⟩)
      · exact ⟨table, h.own⟩
      · by_cases hr : r'.env = r.env
        · exact ⟨table, hr ▸ h.own⟩
        · have hthere := hrecorded.live r' hr'
          rw [h.same hthere hr]
          exact (hrecorded.table hthere).2 ⟨r', hr', rfl⟩
  case tableLive =>
    intro id table' htable
    obtain ⟨-, rfl⟩ | ⟨-, hbefore⟩ := h.owner htable
    · exact h.tableLive
    · exact h.live (hrecorded.tableLive hbefore)
  case apart =>
    intro id other table' h₁ h₂
    obtain ⟨rfl, rfl⟩ | ⟨hid, hbefore⟩ := h.owner h₁ <;>
      obtain ⟨rfl, hsame⟩ | ⟨hother, hbefore'⟩ := h.owner h₂
    · rfl
    · exact absurd (h.unshared hbefore') hother
    · exact absurd (h.unshared (hsame ▸ hbefore)) hid
    · exact hrecorded.apart hbefore hbefore'
  case method =>
    intro id table' name htable hname
    obtain ⟨rfl, rfl⟩ | ⟨hid, hbefore⟩ := h.owner htable
    · exact h.entries hname
    · rw [lastMethod_cons, if_neg fun h => hid h.1.symm, h.method hbefore hid hname,
        hrecorded.method hbefore hname]

end Filed

/-- Where a table was as the log says, it is so again once the method is bound in it. -/
theorem getLocal_registered (htable : s.heap.contains table = true)
    (hbefore : s.heap.getLocal table name = .ok (lastMethod log r.env name)) :
    (s.bound table r.name ⟨r.method, false⟩).heap.getLocal table name =
      .ok (lastMethod (r :: log) r.env name) := by
  rw [getLocal_bound htable, lastMethod_cons]
  by_cases hsame : name = r.name
  · subst hsame
    rw [if_pos ⟨rfl, rfl⟩, if_pos ⟨rfl, rfl⟩]
  · rw [if_neg fun h => hsame h.2, if_neg fun h => hsame h.2.symm, hbefore]

/-- Where the table is there, one name in it is bound. -/
theorem filed_bound (hrecorded : s.heap.Recorded log) (hname : r.name ≠ methodsTableName)
    (htable : s.heap.methodsTable r.env = .ok (some table)) :
    r.Filed log table s (s.bound table r.name ⟨r.method, false⟩) := by
  have htablelive := hrecorded.tableLive htable
  have hget := getLocal_bound htablelive r.name ⟨r.method, false⟩
  have hcontains := contains_bound htablelive r.name ⟨r.method, false⟩
  have htables (id : EnvId) : (s.bound table r.name ⟨r.method, false⟩).heap.methodsTable id =
      s.heap.methodsTable id :=
    Heap.methodsTable_congr ((hget id _).trans (if_neg fun h => hname h.2.symm))
  constructor
  case live => exact fun hid => (hcontains _).trans hid
  case own => exact (htables _).trans htable
  case tableLive => exact (hcontains _).trans htablelive
  case entries =>
    exact fun hfree => getLocal_registered htablelive (hrecorded.method htable hfree)
  case unshared => exact fun h => hrecorded.apart h htable
  case same => exact fun _ _ => htables _
  case fresh =>
    intro other table' hstale h
    have hlive := Heap.contains_of_methodsTable ((htables other).symm.trans h)
    exact Bool.false_ne_true (hstale.symm.trans hlive)
  case method =>
    -- the tables of different environments are different frames
    intro other table' name htable' hne _
    rw [hget, if_neg]
    rintro ⟨rfl, -⟩
    exact hne (hrecorded.apart htable' htable)

/-- A table that is made is nobody else's, and the method is all that is in it. -/
theorem filed_tabled (hwf : s.heap.WellFormed) (hrecorded : s.heap.Recorded log)
    (hname : r.name ≠ methodsTableName) (hnone : s.heap.methodsTable r.env = .ok none) :
    r.Filed log (s.heap.allocate (some s.baseEnv)).1 s
      ((s.tabled r.env).bound (s.heap.allocate (some s.baseEnv)).1 r.name ⟨r.method, false⟩) := by
  let table := (s.heap.allocate (some s.baseEnv)).1
  have hlive := Heap.contains_of_methodsTable hnone
  have hold {id : EnvId} (hid : s.heap.contains id = true) : id ≠ table := ne_allocated hwf hid _
  have hmade := getLocal_tabled hwf hlive
  have htablelive : (s.tabled r.env).heap.contains table = true := by
    rw [contains_tabled hwf hlive, if_pos rfl]
  have hget := getLocal_bound htablelive r.name ⟨r.method, false⟩
  have hcontains := contains_bound htablelive r.name ⟨r.method, false⟩
  -- what an old frame binds it binds still, but for the new table of `r.env`
  have hreads {id : EnvId} {name : Symbol} (hid : id ≠ table)
      (hdiffers : ¬ (id = r.env ∧ name = methodsTableName)) :
      ((s.tabled r.env).bound table r.name ⟨r.method, false⟩).heap.getLocal id name =
        s.heap.getLocal id name := by
    rw [hget, if_neg fun h => hid h.1, hmade, if_neg hdiffers, if_neg hid]
  constructor
  case live =>
    intro id hid
    rw [hcontains, contains_tabled hwf hlive, if_neg (hold hid), hid]
  case own =>
    rw [Heap.methodsTable_eq_some_iff, hget, if_neg fun h => hold hlive h.1, hmade,
      if_pos ⟨rfl, rfl⟩]
  case tableLive => exact (hcontains _).trans htablelive
  case entries =>
    intro name hfree
    have hunlogged : ∀ r' ∈ log, r'.env ≠ r.env := fun r' hr' he => by
      obtain ⟨table', htable'⟩ := (hrecorded.table hlive).2 ⟨r', hr', he⟩
      cases hnone.symm.trans htable'
    refine getLocal_registered htablelive ?_
    rw [hmade, if_neg fun h => hfree h.2, if_pos rfl, lastMethod_eq_none hunlogged]
  case unshared => exact fun h => absurd rfl (hold (hrecorded.tableLive h))
  case same =>
    exact fun hother hne => Heap.methodsTable_congr (hreads (hold hother) fun h => hne h.1)
  case fresh =>
    intro other table' hstale h
    have hread := Heap.methodsTable_eq_some_iff.1 h
    have hother : other ≠ r.env := by
      rintro rfl
      exact Bool.false_ne_true (hstale.symm.trans hlive)
    by_cases hself : other = table
    · rw [hget, if_neg fun h => hname h.2.symm, hmade, if_neg fun h => hother h.1,
        if_pos hself] at hread
      cases hread
    · rw [hreads hself fun h => hother h.1, Heap.getLocal_of_stale hstale] at hread
      cases hread
  case method =>
    exact fun htable' _ hfree => hreads (hold (hrecorded.tableLive htable')) fun h => hfree h.2

/-- Registering a method adds it to the table of its environment and touches no other table. -/
theorem register_spec (hwf : s.heap.WellFormed) (hrecorded : s.heap.Recorded log)
    (hname : r.name ≠ methodsTableName) (hlive : s.heap.contains r.env = true) :
    ∃ t, r.register s = (.ok (), t) ∧ r.Registers log s t := by
  obtain ⟨e, -, hstale | ⟨table, htable, hstale⟩⟩ | ⟨table, htable, -, hrun⟩ | ⟨hnone, hrun⟩ :=
    SessionM.registerMethod_run hwf r.generic r.className r.method r.env
  · exact absurd (hstale.symm.trans hlive) Bool.false_ne_true
  · exact absurd (hstale.symm.trans (hrecorded.tableLive htable)) Bool.false_ne_true
  · have hfiled := filed_bound hrecorded hname htable
    refine ⟨_, hrun, hwf.updateSlot _ _, .updateSlot _ _ _, rfl,
      hfiled.recorded hrecorded hlive, hfiled.spares, fun h => ?_⟩
    cases htable.symm.trans h
    exact hfiled.own
  · have hfiled := filed_tabled hwf hrecorded hname hnone
    refine ⟨_, hrun, (WellFormed.tabled hwf _).updateSlot _ _, ?_, rfl,
      hfiled.recorded hrecorded hlive, hfiled.spares, fun h => ?_⟩
    · exact (Heap.Ages.insert _ _).trans ((Heap.Ages.updateSlot _ _ _).trans (.updateSlot _ _ _))
    · cases hnone.symm.trans h

theorem register_stale (hstale : s.heap.contains r.env = false) :
    r.register s = (.error (.failure (.staleEnvironment r.env)), s) :=
  SessionM.bind_run_error (SessionM.requireMethodsTable_run_stale hstale) _

/-- A registration that succeeds was one for an environment that is there. -/
theorem registers_of_run (hwf : s.heap.WellFormed) (hrecorded : s.heap.Recorded log)
    (hname : r.name ≠ methodsTableName) (hrun : r.register s = (.ok (), t)) :
    r.Registers log s t := by
  cases hlive : s.heap.contains r.env with
  | false => cases (register_stale hlive).symm.trans hrun
  | true =>
    obtain ⟨u, hdone, hu⟩ := register_spec hwf hrecorded hname hlive
    cases hdone.symm.trans hrun
    exact hu

end Registration

/-! ## Chronicles -/

namespace Session

/-- One step of a session and of its log: a method is registered, under another name than that of
    the tables, or the tables remain and the log forgets the environments that are freed. -/
inductive Logs : Session × List Registration → Session × List Registration → Prop where
  | registered {s t : Session} {log : List Registration} (r : Registration)
    (hname : r.name ≠ methodsTableName) (hrun : r.register s = (.ok (), t)) :
    Logs (s, log) (t, r :: log)
  | otherwise {s t : Session} {log : List Registration} (ht : t.Orderly)
    (hages : s.heap.Ages t.heap) (hkeeps : s.heap.KeepsTables t.heap) :
    Logs (s, log) (t, log.filter fun r => t.heap.contains r.env)

/-- Any number of steps. -/
def Chronicle : Session × List Registration → Session × List Registration → Prop :=
  Relation.ReflTransGen Logs

/-- The session is orderly, and its tables are as the log says. -/
def LogsTables (a : Session × List Registration) : Prop := a.1.Orderly ∧ a.1.heap.Recorded a.2

variable {a b : Session × List Registration}

theorem Logs.recorded (h : Logs a b) (ha : LogsTables a) : LogsTables b := by
  obtain ⟨hs, hrecorded⟩ := ha
  cases h with
  | registered r hname hrun =>
    have hdone := Registration.registers_of_run hs.wellFormed hrecorded hname hrun
    exact ⟨⟨hdone.wellFormed, hdone.stack ▸ hs.args⟩, hdone.recorded⟩
  | otherwise ht _ hkeeps => exact ⟨ht, hrecorded.keeps hkeeps⟩

theorem Chronicle.recorded (h : Chronicle a b) (ha : LogsTables a) : LogsTables b := by
  induction h with
  | refl => exact ha
  | tail _ hstep ih => exact hstep.recorded ih

theorem Logs.ages (h : Logs a b) (ha : LogsTables a) : a.1.heap.Ages b.1.heap := by
  cases h with
  | registered r hname hrun =>
    exact (Registration.registers_of_run ha.1.wellFormed ha.2 hname hrun).ages
  | otherwise _ hages => exact hages

theorem Chronicle.ages (h : Chronicle a b) (ha : LogsTables a) : a.1.heap.Ages b.1.heap := by
  induction h with
  | refl => exact .refl _
  | tail hbefore hstep ih => exact ih.trans (hstep.ages (Chronicle.recorded hbefore ha))

/-- One step replaces no table of an environment that remains. -/
theorem Logs.methodsTable (h : Logs a b) (ha : LogsTables a)
    (htable : a.1.heap.methodsTable env = .ok (some table)) (hlive : b.1.heap.contains env = true) :
    b.1.heap.methodsTable env = .ok (some table) := by
  obtain ⟨hs, hrecorded⟩ := ha
  have hthere := Heap.contains_of_methodsTable htable
  cases h with
  | registered r hname hrun =>
    have hdone := Registration.registers_of_run hs.wellFormed hrecorded hname hrun
    by_cases hr : env = r.env
    · subst hr
      exact hdone.same htable
    · exact (hdone.spares.same hthere hr).trans htable
  | otherwise _ _ hkeeps => exact (hkeeps.same hthere hlive).trans htable

/-- A table is never replaced: an environment that is there has the table that it had, unless it was
    freed in between and the generations of its slot have begun anew. -/
theorem Chronicle.methodsTable (h : Chronicle a b) (ha : LogsTables a)
    (htable : a.1.heap.methodsTable env = .ok (some table)) (hlive : b.1.heap.contains env = true)
    (hcount : b.1.heap.stats.collections < a.1.heap.stats.collections + 2 ^ 32) :
    b.1.heap.methodsTable env = .ok (some table) := by
  induction h with
  | refl => exact htable
  | @tail b c hbefore hstep ih =>
    have hb : LogsTables b := Chronicle.recorded hbefore ha
    have hages := hstep.ages hb
    -- the environment was there all the time, so it had the table at each step
    have hbetween : b.1.heap.contains env = true :=
      (Chronicle.ages hbefore ha).contains_between hages (Heap.contains_of_methodsTable htable)
        hlive hcount
    have hbefore := ih hbetween (Nat.lt_of_le_of_lt hages.collections hcount)
    exact hstep.methodsTable hb hbefore hlive

end Session

end

end CallByNeed
