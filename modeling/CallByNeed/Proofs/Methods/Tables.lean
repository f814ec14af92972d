import CallByNeed.Proofs.Bindings
import CallByNeed.Proofs.Heap.WellFormed

/-!
# Methods tables

The methods table of an environment is what it binds under one reserved name, if
that is an environment.  Registering a method writes one binding of the table; a
table that was not there is made first, and is then bound in its turn
(`SessionM.registerMethod_run`).
-/

namespace CallByNeed

namespace Heap

variable {h : Heap} {env table : EnvId} {name : Symbol}

theorem getLocal_of_frame? {f : Frame} (hf : h.frame? env = some f) (name : Symbol) :
    h.getLocal env name = .ok ((f.get? name).map (·.value)) := by
  simp only [getLocal, frame, hf]
  rfl

theorem getLocal_of_stale (hstale : h.contains env = false) (name : Symbol) :
    h.getLocal env name = .error (.staleEnvironment env) := by
  have hnone : h.frame? env = none := by simpa [contains] using hstale
  simp only [getLocal, frame, hnone]
  rfl

theorem contains_of_getLocal {value : Option Value} (hget : h.getLocal env name = .ok value) :
    h.contains env = true := by
  cases hlive : h.contains env with
  | true => rfl
  | false =>
    rw [getLocal_of_stale hlive] at hget
    cases hget

theorem getLocal_congr {h' : Heap} (hframe : h'.frame? env = h.frame? env) (name : Symbol) :
    h'.getLocal env name = h.getLocal env name := by
  simp only [getLocal, frame, hframe]

theorem methodsTable_congr {h' : Heap} (hget : h'.getLocal env methodsTableName =
    h.getLocal env methodsTableName) : h'.methodsTable env = h.methodsTable env := by
  simp only [methodsTable, hget]

theorem methodsTable_eq_some_iff : h.methodsTable env = .ok (some table) ↔
    h.getLocal env methodsTableName = .ok (some (.environment table)) := by
  unfold methodsTable
  rcases h.getLocal env methodsTableName with e | _ | value
  · simp only [bind, Except.bind, reduceCtorEq]
  · simp only [bind, Except.bind, pure, Except.pure, Except.ok.injEq, reduceCtorEq]
  · cases value <;>
      simp only [bind, Except.bind, pure, Except.pure, Except.ok.injEq, reduceCtorEq,
        Option.some.injEq, Value.environment.injEq]

theorem contains_of_methodsTable {found : Option EnvId} (h' : h.methodsTable env = .ok found) :
    h.contains env = true := by
  cases hlive : h.contains env with
  | true => rfl
  | false =>
    rw [methodsTable, getLocal_of_stale hlive] at h'
    cases h'

theorem exists_methodsTable (hlive : h.contains env = true) :
    ∃ found, h.methodsTable env = .ok found := by
  obtain ⟨f, hf⟩ := Option.isSome_iff_exists.1 hlive
  simp only [methodsTable, getLocal_of_frame? hf]
  cases (f.get? methodsTableName).map (·.value) with
  | none => exact ⟨_, rfl⟩
  | some value => cases value <;> exact ⟨_, rfl⟩

end Heap

namespace Session

variable {s : Session} {env : EnvId}

theorem getLocal_bound (hlive : s.heap.contains env = true) (name : Symbol) (b : Binding)
    (id : EnvId) (other : Symbol) : (s.bound env name b).heap.getLocal id other =
      if id = env ∧ other = name then .ok (some b.value) else s.heap.getLocal id other := by
  by_cases hid : id = env
  · subst hid
    obtain ⟨f, hf⟩ := Option.isSome_iff_exists.1 hlive
    have hframe : (s.bound id name b).heap.frame? id = some (f.bind name b) := by
      rw [frame?_bound hlive, if_pos rfl, hf, Option.map_some]
    rw [Heap.getLocal_of_frame? hframe, Heap.getLocal_of_frame? hf]
    by_cases hother : other = name
    · simp [hother]
    · simp [hother, Frame.get?_bind_of_ne _ _ hother]
  · rw [if_neg (by simp [hid])]
    exact Heap.getLocal_congr (by rw [frame?_bound hlive, if_neg hid]) other

/-- The session in which an environment has got a new methods table, and nothing is in it. -/
def tabled (s : Session) (env : EnvId) : Session :=
  ({ s with heap := (s.heap.allocate (some s.baseEnv)).2 }).bound env methodsTableName
    ⟨.environment (s.heap.allocate (some s.baseEnv)).1, false⟩

theorem WellFormed.tabled (hwf : s.heap.WellFormed) (env : EnvId) :
    (s.tabled env).heap.WellFormed :=
  (hwf.allocate _).updateSlot _ _

theorem contains_allocated_eq_false (hwf : s.heap.WellFormed) (parent : Option EnvId) :
    s.heap.contains (s.heap.allocate parent).1 = false :=
  Heap.frame?_eq_none_iff.1 (hwf.frame?_new (.empty parent))

theorem ne_allocated (hwf : s.heap.WellFormed) (hlive : s.heap.contains env = true)
    (parent : Option EnvId) : env ≠ (s.heap.allocate parent).1 := by
  intro he
  exact Bool.false_ne_true ((contains_allocated_eq_false hwf parent).symm.trans (he ▸ hlive))

theorem frame?_tabled (hwf : s.heap.WellFormed) (hlive : s.heap.contains env = true) (id : EnvId) :
    (s.tabled env).heap.frame? id =
      if id = env then (s.heap.frame? env).map (·.set methodsTableName
        (.environment (s.heap.allocate (some s.baseEnv)).1))
      else if id = (s.heap.allocate (some s.baseEnv)).1 then some (.empty (some s.baseEnv))
      else s.heap.frame? id := by
  have hlive' : (s.heap.allocate (some s.baseEnv)).2.contains env = true :=
    Heap.contains_insert hlive _
  have hne := ne_allocated hwf hlive (some s.baseEnv)
  rw [Session.tabled, frame?_bound hlive']
  split
  · rw [show (s.heap.allocate (some s.baseEnv)).2.frame? env = s.heap.frame? env from
      (hwf.frame?_insert _ _).trans (if_neg hne)]
    rfl
  · exact hwf.frame?_insert _ _

theorem contains_tabled (hwf : s.heap.WellFormed) (hlive : s.heap.contains env = true)
    (id : EnvId) : (s.tabled env).heap.contains id =
      if id = (s.heap.allocate (some s.baseEnv)).1 then true else s.heap.contains id := by
  rw [Heap.contains, frame?_tabled hwf hlive]
  by_cases hid : id = env
  · subst hid
    rw [if_pos rfl, if_neg (ne_allocated hwf hlive _), Option.isSome_map]
    rfl
  · rw [if_neg hid]
    split <;> rfl

theorem getLocal_tabled (hwf : s.heap.WellFormed) (hlive : s.heap.contains env = true)
    (id : EnvId) (name : Symbol) : (s.tabled env).heap.getLocal id name =
      if id = env ∧ name = methodsTableName then
        .ok (some (.environment (s.heap.allocate (some s.baseEnv)).1))
      else if id = (s.heap.allocate (some s.baseEnv)).1 then .ok none
      else s.heap.getLocal id name := by
  have hframe := frame?_tabled hwf hlive id
  by_cases hid : id = env
  · subst hid
    obtain ⟨f, hf⟩ := Option.isSome_iff_exists.1 hlive
    rw [if_pos rfl, hf, Option.map_some] at hframe
    rw [Heap.getLocal_of_frame? hframe, Heap.getLocal_of_frame? hf, Frame.set,
      if_neg (ne_allocated hwf hlive _)]
    by_cases hname : name = methodsTableName
    · subst hname
      rw [if_pos ⟨rfl, rfl⟩, Frame.get?_bind_self]
      rfl
    · rw [if_neg fun h => hname h.2, Frame.get?_bind_of_ne _ _ hname]
  · rw [if_neg hid] at hframe
    rw [if_neg fun h => hid h.1]
    split at hframe
    · rename_i htable
      rw [if_pos htable, Heap.getLocal_of_frame? hframe]
      rfl
    · rename_i htable
      rw [if_neg htable, Heap.getLocal_congr hframe]

end Session

namespace SessionM

open Session

variable {s t : Session} {generic className : String} {method : Value} {env table : EnvId}

theorem requireMethodsTable_run_stale (hstale : s.heap.contains env = false) :
    requireMethodsTable env s = (.error (.failure (.staleEnvironment env)), s) := by
  have hasked : s.heap.methodsTable env = .error (.staleEnvironment env) := by
    rw [Heap.methodsTable, Heap.getLocal_of_stale hstale]
    rfl
  exact bind_run_error (askHeap_run_error hasked) _

theorem requireMethodsTable_run_some (htable : s.heap.methodsTable env = .ok (some table)) :
    requireMethodsTable env s = (.ok table, s) := by
  have hasked : methodsTable env s = (.ok (some table), s) := askHeap_run_ok htable
  exact bind_run_ok hasked _

theorem requireMethodsTable_run_none (hnone : s.heap.methodsTable env = .ok none) :
    requireMethodsTable env s = (.ok (s.heap.allocate (some s.baseEnv)).1, s.tabled env) := by
  let made : Session := { s with heap := (s.heap.allocate (some s.baseEnv)).2 }
  have hlive : made.heap.contains env = true :=
    Heap.contains_insert (Heap.contains_of_methodsTable hnone) _
  have hbound : bindIn env methodsTableName (.environment (s.heap.allocate (some s.baseEnv)).1)
      made = (.ok (), s.tabled env) :=
    (bindIn_run _ _ _ _).trans (if_pos hlive)
  have hasked : methodsTable env s = (.ok none, s) := askHeap_run_ok hnone
  refine (bind_run_ok hasked _).trans ?_
  exact (bind_run_ok (t := made) rfl _).trans (bind_run_ok hbound _)

/-- A method is bound in the table of its environment, which is made before if it was not there; or
    the environment, or its table, is there no more. -/
theorem registerMethod_run (hwf : s.heap.WellFormed) (generic className : String) (method : Value)
    (env : EnvId) :
    (∃ e, registerMethod generic className method env s = (.error (.failure e), s) ∧
      (s.heap.contains env = false ∨
        ∃ table, s.heap.methodsTable env = .ok (some table) ∧ s.heap.contains table = false)) ∨
    (∃ table, s.heap.methodsTable env = .ok (some table) ∧ s.heap.contains table = true ∧
      registerMethod generic className method env s =
        (.ok (), s.bound table (methodName generic className) ⟨method, false⟩)) ∨
    (s.heap.methodsTable env = .ok none ∧
      registerMethod generic className method env s =
        (.ok (), (s.tabled env).bound (s.heap.allocate (some s.baseEnv)).1
          (methodName generic className) ⟨method, false⟩)) := by
  cases hlive : s.heap.contains env with
  | false => exact .inl ⟨_, bind_run_error (requireMethodsTable_run_stale hlive) _, .inl rfl⟩
  | true =>
    obtain ⟨found, hfound⟩ := Heap.exists_methodsTable hlive
    cases found with
    | some table =>
      have hrun := bind_run_ok (requireMethodsTable_run_some hfound) fun table =>
        bindIn table (methodName generic className) method
      rw [bindIn_run] at hrun
      cases htable : s.heap.contains table with
      | true =>
        rw [htable, if_pos rfl] at hrun
        exact .inr (.inl ⟨table, hfound, htable, hrun⟩)
      | false =>
        rw [htable, if_neg Bool.false_ne_true] at hrun
        exact .inl ⟨_, hrun, .inr ⟨table, hfound, htable⟩⟩
    | none =>
      refine .inr (.inr ⟨hfound, (bind_run_ok (requireMethodsTable_run_none hfound) _).trans ?_⟩)
      have htable : (s.tabled env).heap.contains (s.heap.allocate (some s.baseEnv)).1 = true := by
        rw [contains_tabled hwf hlive, if_pos rfl]
      exact (bindIn_run _ _ _ _).trans (if_pos htable)

end SessionM

end CallByNeed
