import CallByNeed.Proofs.Bindings
import CallByNeed.Proofs.Heap.Collection
import CallByNeed.Proofs.Reachable
import Mathlib.Logic.Relation

/-!
# The registry of namespaces

The registry finds a namespace by its name and the name by its environment, and
the two never disagree (`Namespaces.Consistent`).  Namespaces come into being and
are exported from and sealed, but none ever goes away or changes its environment
(`Namespaces.Grows`), and no collection frees one: every environment in the
registry is there (`Session.Registered`).

All that can happen to a session is a sequence of small changes (`Session.Change`),
and so is every evaluation (`Contract.life`).  Of those changes only loading,
exporting and sealing touch the registry, and a collection starts from it.
-/

namespace CallByNeed

/-! ## What may become of a namespace -/

/-- What may have become of a namespace later. -/
structure Namespace.Grows (ns later : Namespace) : Prop where
  name : later.name = ns.name
  env : later.env = ns.env
  /-- New exports come behind the old ones. -/
  exports : ns.exports <+: later.exports
  /-- Nothing becomes of a sealed namespace. -/
  isSealed : ns.isSealed = true → later = ns

namespace Namespace.Grows

variable {ns later last : Namespace}

theorem refl (ns : Namespace) : ns.Grows ns := ⟨rfl, rfl, List.prefix_rfl, fun _ => rfl⟩

theorem trans (h₁ : ns.Grows later) (h₂ : later.Grows last) : ns.Grows last where
  name := h₂.name.trans h₁.name
  env := h₂.env.trans h₁.env
  exports := h₁.exports.trans h₂.exports
  isSealed h := by
    obtain rfl := h₁.isSealed h
    exact h₂.isSealed h

end Namespace.Grows

namespace Namespace

variable {ns ns' : Namespace} {exported : Symbol}

theorem export?_of_isSealed (h : ns.isSealed = true) (exported : Symbol) :
    ns.export? exported = .error (.namespaceSealed ns.name) := by
  rw [export?, if_pos h]

/-- A namespace that is not sealed exports a name once, behind the others. -/
theorem export?_of_not_isSealed (h : ns.isSealed = false) (exported : Symbol) :
    ns.export? exported = .ok { ns with
      exports := if exported ∈ ns.exports then ns.exports else ns.exports ++ [exported] } := by
  obtain ⟨name, env, exports, isSealed⟩ := ns
  subst h
  by_cases hmem : exported ∈ exports <;> simp [export?, hmem]

theorem not_isSealed_of_export? (h : ns.export? exported = .ok ns') : ns.isSealed = false := by
  cases hsealed : ns.isSealed with
  | false => rfl
  | true =>
    rw [export?_of_isSealed hsealed] at h
    cases h

theorem grows_of_export? (h : ns.export? exported = .ok ns') : ns.Grows ns' := by
  have hopen := not_isSealed_of_export? h
  rw [export?_of_not_isSealed hopen] at h
  cases h
  refine ⟨rfl, rfl, ?_, fun hsealed => by simp [hopen] at hsealed⟩
  dsimp only
  split
  · exact List.prefix_rfl
  · exact List.prefix_append _ _

theorem nodup_of_export? (hnodup : ns.exports.Nodup) (h : ns.export? exported = .ok ns') :
    ns'.exports.Nodup := by
  rw [export?_of_not_isSealed (not_isSealed_of_export? h)] at h
  cases h
  dsimp only
  split
  · exact hnodup
  · rename_i hnew
    exact List.nodup_append'.2 ⟨hnodup, List.nodup_singleton _, by simpa using hnew⟩

theorem grows_freeze (ns : Namespace) : ns.Grows ns.freeze :=
  ⟨rfl, rfl, List.prefix_rfl, fun h => by rw [freeze, ← h]⟩

end Namespace

/-! ## The two maps -/

namespace Namespaces

variable {known later last : Namespaces} {name other : Symbol} {env : EnvId} {ns : Namespace}
  {heap : Heap}

structure Consistent (known : Namespaces) : Prop where
  /-- The name of an environment and the namespace of a name are inverse to each other. -/
  inverse : ∀ {env name}, known.nameOf? env = some name ↔
    ∃ ns, known.get? name = some ns ∧ ns.env = env
  named : ∀ {name ns}, known.get? name = some ns → ns.name = name
  nodup : ∀ {name ns}, known.get? name = some ns → ns.exports.Nodup
  base : known.get? baseName = some ⟨baseName, known.baseEnv, [], true⟩

/-- What may have become of a registry later. -/
structure Grows (known later : Namespaces) : Prop where
  baseEnv : later.baseEnv = known.baseEnv
  kept : ∀ {name ns}, known.get? name = some ns →
    ∃ ns', later.get? name = some ns' ∧ ns.Grows ns'

theorem Grows.refl (known : Namespaces) : known.Grows known := ⟨rfl, fun h => ⟨_, h, .refl _⟩⟩

theorem Grows.trans (h₁ : known.Grows later) (h₂ : later.Grows last) : known.Grows last where
  baseEnv := h₂.baseEnv.trans h₁.baseEnv
  kept h := by
    obtain ⟨ns', hns', hgrows⟩ := h₁.kept h
    obtain ⟨ns'', hns'', hgrows'⟩ := h₂.kept hns'
    exact ⟨ns'', hns'', hgrows.trans hgrows'⟩

theorem mem_environments (h : known.get? name = some ns) : ns.env ∈ known.environments := by
  obtain ⟨before, after, hsplit, -⟩ := List.lookup_eq_some_iff.1 h
  exact List.mem_map.2 ⟨(name, ns), by simp [hsplit], rfl⟩

theorem lookup_singleton {α β : Type} [DecidableEq α] (key other : α) (value : β) :
    [(key, value)].lookup other = if other = key then some value else none := by
  by_cases h : other = key
  · simp [h]
  · have hmiss : (other == key) = false := by simpa using h
    rw [List.lookup_cons, hmiss, if_neg h]
    rfl

theorem consistent_initial (baseEnv : EnvId) : (initial baseEnv).Consistent := by
  have hget {name : Symbol} {ns : Namespace} (h : (initial baseEnv).get? name = some ns) :
      name = baseName ∧ ns = ⟨baseName, baseEnv, [], true⟩ := by
    rw [get?, initial, lookup_singleton] at h
    split at h
    · rename_i hname
      cases h
      exact ⟨hname, rfl⟩
    · cases h
  constructor
  case inverse =>
    intro env name
    rw [nameOf?, initial, lookup_singleton]
    constructor
    · intro h
      split at h
      · rename_i henv
        cases h
        exact ⟨_, rfl, henv.symm⟩
      · cases h
    · rintro ⟨ns, hns, rfl⟩
      obtain ⟨rfl, rfl⟩ := hget hns
      exact if_pos rfl
  case named =>
    intro name ns h
    obtain ⟨rfl, rfl⟩ := hget h
    rfl
  case nodup =>
    intro name ns h
    obtain ⟨rfl, rfl⟩ := hget h
    exact List.nodup_nil
  case base => rfl

/-! ### Changing what is recorded -/

theorem get?_update (known : Namespaces) (ns : Namespace) (name : Symbol) :
    (known.update ns).get? name =
      if name = ns.name then (known.get? name).map fun _ => ns else known.get? name := by
  simp only [get?, update]
  induction known.loaded with
  | nil => simp
  | cons entry rest ih =>
    obtain ⟨key, old⟩ := entry
    rw [List.map_cons, List.lookup_cons]
    by_cases hkey : name = key
    · subst hkey
      by_cases hname : name = ns.name <;> simp [hname]
    · have hmiss : (name == key) = false := by simpa using hkey
      simp only [apply_ite Prod.fst, ite_self, hmiss, ih, List.lookup_cons]

/-- Recording what has become of a namespace. -/
theorem Consistent.update (h : known.Consistent) {ns' : Namespace}
    (hns : known.get? name = some ns) (hgrows : ns.Grows ns') (hnodup : ns'.exports.Nodup) :
    (known.update ns').Consistent ∧ known.Grows (known.update ns') := by
  have hname : ns'.name = name := hgrows.name.trans (h.named hns)
  have hself : (known.update ns').get? name = some ns' := by
    rw [get?_update, if_pos hname.symm, hns, Option.map_some]
  have hother {other : Symbol} (hne : other ≠ name) :
      (known.update ns').get? other = known.get? other := by
    rw [get?_update, if_neg (hname.symm ▸ hne)]
  -- every look-up in the new registry is one in the old, or the one that was changed
  have hcases {other : Symbol} {found : Namespace}
      (hfound : (known.update ns').get? other = some found) :
      known.get? other = some found ∨ other = name ∧ found = ns' := by
    by_cases hne : other = name
    · subst hne
      exact .inr ⟨rfl, Option.some.inj (hfound.symm.trans hself)⟩
    · exact .inl ((hother hne).symm.trans hfound)
  refine ⟨?_, rfl, ?_⟩
  · constructor
    case inverse =>
      intro env other
      change known.nameOf? env = some other ↔ _
      rw [h.inverse]
      by_cases hne : other = name
      · subst hne
        simp [hself, hns, hgrows.env]
      · rw [hother hne]
    case named =>
      intro other found hfound
      obtain hfound | ⟨rfl, rfl⟩ := hcases hfound
      · exact h.named hfound
      · exact hname
    case nodup =>
      intro other found hfound
      obtain hfound | ⟨rfl, rfl⟩ := hcases hfound
      · exact h.nodup hfound
      · exact hnodup
    case base =>
      by_cases hne : baseName = name
      · subst hne
        rw [h.base] at hns
        cases hns
        rw [hself, hgrows.isSealed rfl]
        rfl
      · rw [hother hne]
        exact h.base
  · intro other found hfound
    by_cases hne : other = name
    · subst hne
      rw [hns] at hfound
      cases hfound
      exact ⟨ns', hself, hgrows⟩
    · exact ⟨found, (hother hne).trans hfound, .refl found⟩

/-! ### Loading -/

theorem load_of_get? (h : known.get? name = some ns) (heap : Heap) :
    known.load heap name = (ns, known, heap) := by
  rw [load, h]

/-- The registry with a new namespace. -/
def added (known : Namespaces) (name : Symbol) (env : EnvId) : Namespaces :=
  { known with
    loaded := known.loaded ++ [(name, ⟨name, env, [], false⟩)]
    owners := known.owners ++ [(env, name)] }

theorem load_of_get?_none (h : known.get? name = none) (heap : Heap) :
    known.load heap name =
      (⟨name, (heap.allocate (some known.baseEnv)).1, [], false⟩,
        known.added name (heap.allocate (some known.baseEnv)).1,
        (heap.allocate (some known.baseEnv)).2) := by
  rw [load, h]
  rfl

theorem get?_added (known : Namespaces) (name other : Symbol) (env : EnvId) :
    (known.added name env).get? other =
      (known.get? other).or (if other = name then some ⟨name, env, [], false⟩ else none) := by
  rw [get?, added, List.lookup_append, lookup_singleton]
  rfl

theorem nameOf?_added (known : Namespaces) (name : Symbol) (env other : EnvId) :
    (known.added name env).nameOf? other =
      (known.nameOf? other).or (if other = env then some name else none) := by
  rw [nameOf?, added, List.lookup_append, lookup_singleton]
  rfl

/-- A new namespace has a name and an environment that the registry does not know. -/
theorem Consistent.added (h : known.Consistent) (hname : known.get? name = none)
    (henv : known.nameOf? env = none) :
    (known.added name env).Consistent ∧ known.Grows (known.added name env) := by
  have hold {other : Symbol} {ns : Namespace} (hother : known.get? other = some ns) :
      (known.added name env).get? other = some ns := by
    rw [get?_added, hother, Option.some_or]
  -- every look-up in the new registry is one in the old, or finds the new namespace
  have hcases {other : Symbol} {ns : Namespace}
      (hother : (known.added name env).get? other = some ns) :
      known.get? other = some ns ∨ other = name ∧ ns = ⟨name, env, [], false⟩ := by
    rw [get?_added, Option.or_eq_some_iff] at hother
    obtain hother | ⟨-, hother⟩ := hother
    · exact .inl hother
    · split at hother
      · rename_i hsame
        cases hother
        exact .inr ⟨hsame, rfl⟩
      · cases hother
  refine ⟨?_, rfl, fun hother => ⟨_, hold hother, .refl _⟩⟩
  constructor
  case inverse =>
    intro id other
    rw [nameOf?_added, Option.or_eq_some_iff, h.inverse]
    constructor
    · rintro (⟨ns, hns, rfl⟩ | ⟨-, hnew⟩)
      · exact ⟨ns, hold hns, rfl⟩
      · split at hnew
        · rename_i hid
          cases hnew
          refine ⟨⟨name, env, [], false⟩, ?_, hid.symm⟩
          rw [get?_added, hname, if_pos rfl, Option.none_or]
        · cases hnew
    · rintro ⟨ns, hns, rfl⟩
      obtain hns | ⟨rfl, rfl⟩ := hcases hns
      · exact .inl ⟨ns, hns, rfl⟩
      · exact .inr ⟨henv, if_pos rfl⟩
  case named =>
    intro other ns hns
    obtain hns | ⟨rfl, rfl⟩ := hcases hns
    · exact h.named hns
    · rfl
  case nodup =>
    intro other ns hns
    obtain hns | ⟨rfl, rfl⟩ := hcases hns
    · exact h.nodup hns
    · exact List.nodup_nil
  case base => exact hold h.base

end Namespaces

/-! ## The registry of a session -/

namespace Session

structure Registered (s : Session) : Prop where
  heap : s.heap.WellFormed
  consistent : s.namespaces.Consistent
  base : s.namespaces.baseEnv = s.baseEnv
  /-- No frame of a namespace is ever freed. -/
  live : ∀ {name ns}, s.namespaces.get? name = some ns → s.heap.contains ns.env = true

variable {s t u : Session}

/-- A session whose registry is a later one than that of the first. -/
structure Since (s t : Session) : Prop where
  registered : t.Registered
  grows : s.namespaces.Grows t.namespaces
  base : t.baseEnv = s.baseEnv

/-- If the registry of the first session is all right, the second one has a later one. -/
def Registers (s t : Session) : Prop := s.Registered → s.Since t

theorem Since.trans (h₁ : s.Since t) (h₂ : t.Since u) : s.Since u :=
  ⟨h₂.registered, h₁.grows.trans h₂.grows, h₂.base.trans h₁.base⟩

theorem Registers.refl (s : Session) : s.Registers s := fun h => ⟨h, .refl _, rfl⟩

theorem Registers.trans (h₁ : s.Registers t) (h₂ : t.Registers u) : s.Registers u :=
  fun h => (h₁ h).trans (h₂ (h₁ h).registered)

/-- Whatever does not touch the heap and the registry keeps both. -/
theorem Registers.of_eq (hheap : t.heap = s.heap) (hnamespaces : t.namespaces = s.namespaces)
    (hbase : t.baseEnv = s.baseEnv) : s.Registers t := by
  intro h
  refine ⟨⟨hheap ▸ h.heap, hnamespaces ▸ h.consistent, ?_, ?_⟩, hnamespaces ▸ .refl _, hbase⟩
  · rw [hnamespaces, hbase, h.base]
  · rw [hnamespaces, hheap]
    exact h.live

/-- Nor does it matter what becomes of the heap, as long as no namespace is freed. -/
theorem Registers.of_heap {heap : Heap} (hwf : s.Registered → heap.WellFormed)
    (hlive : ∀ {name ns}, s.Registered → s.namespaces.get? name = some ns →
      heap.contains ns.env = true) : s.Registers { s with heap } :=
  fun h => ⟨⟨hwf h, h.consistent, h.base, hlive h⟩, .refl _, rfl⟩

theorem registers_load (name : Symbol) :
    s.Registers
      { s with
        namespaces := (s.namespaces.load s.heap name).2.1
        heap := (s.namespaces.load s.heap name).2.2 } := by
  cases hname : s.namespaces.get? name with
  | some ns =>
    rw [Namespaces.load_of_get? hname]
    exact .refl s
  | none =>
    rw [Namespaces.load_of_get?_none hname]
    intro h
    have henv : s.namespaces.nameOf? (s.heap.allocate (some s.namespaces.baseEnv)).1 = none := by
      rw [Option.eq_none_iff_forall_ne_some]
      intro other hother
      obtain ⟨ns, hns, hsame⟩ := h.consistent.inverse.1 hother
      -- the environment of a loaded namespace is there, so no new frame gets its reference
      have hlive := h.live hns
      rw [hsame, Heap.contains] at hlive
      simp [Heap.allocate, h.heap.frame?_new] at hlive
    obtain ⟨hconsistent, hgrows⟩ := h.consistent.added hname henv
    refine ⟨⟨h.heap.allocate _, hconsistent, h.base, fun {other ns} hns => ?_⟩, hgrows, rfl⟩
    rw [Namespaces.get?_added, Option.or_eq_some_iff] at hns
    obtain hold | ⟨-, hnew⟩ := hns
    · exact Heap.contains_insert (h.live hold) _
    · split at hnew
      · cases hnew
        rw [Heap.contains, Heap.allocate, h.heap.frame?_insert_self, Option.isSome_some]
      · cases hnew

theorem Registers.of_move (h : s.Move t) : s.Registers t := by
  cases h with
  | write name binding live =>
    refine .of_heap (fun h => h.heap.updateSlot _ _) fun h hns => ?_
    exact (contains_bound live name binding _).trans (h.live hns)
  | allocate parent =>
    exact .of_heap (fun h => h.heap.allocate parent)
      fun h hns => Heap.contains_insert (h.live hns) _
  | identify => exact .of_eq rfl rfl rfl
  | promise p unmarked => exact .of_eq rfl rfl rfl
  | load name => exact registers_load name
  | collect held hcollect =>
    refine .of_heap (fun h => h.heap.collect hcollect) fun {name ns} h hns => ?_
    -- the environments of the registry are roots, so no collection frees them
    have hroot : ns.env ∈ s.rootEnvs :=
      .tail _ (.tail _ (List.mem_append_left _ (Namespaces.mem_environments hns)))
    exact Heap.contains_of_collect hcollect (h.live hns) hroot

theorem registered_initial (options : Options) (kernels : KernelTable) :
    (initial options kernels).Registered := by
  have hbase : (Heap.empty.insert baseFrame).2.WellFormed := Heap.wellFormed_empty.insert _
  have hconsistent := Namespaces.consistent_initial (initial options kernels).baseEnv
  refine ⟨hbase.allocate _, hconsistent, rfl, fun {name ns} hns => ?_⟩
  have hname := hconsistent.inverse.2 ⟨ns, hns, rfl⟩
  have henv : ns.env = (initial options kernels).baseEnv := by
    change ((Namespaces.initial _).owners.lookup ns.env) = some name at hname
    rw [Namespaces.initial, Namespaces.lookup_singleton] at hname
    split at hname
    · assumption
    · cases hname
  rw [henv]
  have hthere :
      (Heap.empty.insert baseFrame).2.contains (Heap.empty.insert baseFrame).1 = true := by
    rw [Heap.contains, Heap.wellFormed_empty.frame?_insert_self, Option.isSome_some]
  exact Heap.contains_insert hthere _

end Session

/-! ## What a host does with a namespace -/

namespace SessionM

/-- Change what is recorded of a loaded namespace, or fail and leave it. -/
def changeNamespace (name : Symbol) (change : Namespace → Except EvalError Namespace) :
    SessionM Unit := do
  let s ← get
  let ns ← ofExcept (s.namespaces.require name)
  let changed ← ofExcept (change ns)
  set { s with namespaces := s.namespaces.update changed }

def exportName (name exported : Symbol) : SessionM Unit :=
  changeNamespace name (·.export? exported)

def sealNamespace (name : Symbol) : SessionM Unit :=
  changeNamespace name fun ns => .ok ns.freeze

variable {s : Session} {name : Symbol} {change : Namespace → Except EvalError Namespace}
  {ns changed : Namespace}

theorem changeNamespace_run_none (h : s.namespaces.get? name = none) :
    changeNamespace name change s = (.error (.failure (noNamespace name)), s) := by
  simp only [changeNamespace, get_bind_run, Namespaces.require, h]
  rfl

theorem changeNamespace_run_error (h : s.namespaces.get? name = some ns) {e : EvalError}
    (hchange : change ns = .error e) :
    changeNamespace name change s = (.error (.failure e), s) := by
  simp only [changeNamespace, get_bind_run, Namespaces.require, h, ofExcept_ok, pure_bind_run,
    hchange]
  rfl

theorem changeNamespace_run_ok (h : s.namespaces.get? name = some ns)
    (hchange : change ns = .ok changed) :
    changeNamespace name change s =
      (.ok (), { s with namespaces := s.namespaces.update changed }) := by
  simp only [changeNamespace, get_bind_run, Namespaces.require, h, ofExcept_ok, pure_bind_run,
    hchange]
  rfl

end SessionM

namespace Session

variable {s t : Session} {name : Symbol} {change : Namespace → Except EvalError Namespace}

theorem registers_changeNamespace
    (hgrows : ∀ {ns changed}, change ns = .ok changed → ns.Grows changed)
    (hnodup : ∀ {ns changed}, ns.exports.Nodup → change ns = .ok changed →
      changed.exports.Nodup) :
    s.Registers (SessionM.changeNamespace name change s).2 := by
  -- nothing happens unless the namespace is there and the change succeeds
  cases hns : s.namespaces.get? name with
  | none =>
    rw [SessionM.changeNamespace_run_none hns]
    exact .refl s
  | some ns =>
    cases hchange : change ns with
    | error e =>
      rw [SessionM.changeNamespace_run_error hns hchange]
      exact .refl s
    | ok changed =>
      rw [SessionM.changeNamespace_run_ok hns hchange]
      intro h
      obtain ⟨hconsistent, hlater⟩ :=
        h.consistent.update hns (hgrows hchange) (hnodup (h.consistent.nodup hns) hchange)
      refine ⟨⟨h.heap, hconsistent, h.base, fun {other found} hfound => ?_⟩, hlater, rfl⟩
      rw [Namespaces.get?_update] at hfound
      split at hfound
      · rename_i hother
        obtain ⟨old, hold, rfl⟩ := Option.map_eq_some_iff.1 hfound
        rw [hother, (hgrows hchange).name, h.consistent.named hns, hns] at hold
        cases hold
        exact (hgrows hchange).env ▸ h.live hns
      · exact h.live hfound

theorem registers_exportName (exported : Symbol) :
    s.Registers (SessionM.exportName name exported s).2 :=
  registers_changeNamespace Namespace.grows_of_export? Namespace.nodup_of_export?

theorem registers_sealNamespace : s.Registers (SessionM.sealNamespace name s).2 := by
  refine registers_changeNamespace (fun {ns changed} h => ?_) fun {ns changed} hnodup h => ?_
  · cases h
    exact ns.grows_freeze
  · cases h
    exact hnodup

/-! ## The life of a session -/

/-- One change of a session.  Evaluation makes small changes, marks promises and gives them their
    values, enters and leaves invocations and records loops; a host exports names, seals namespaces
    and holds on to values, and its own small changes are collections among others. -/
inductive Change : Session → Session → Prop where
  | moved {s t : Session} (h : s.Move t) : Change s t
  | marked {s : Session} (id : PromiseId) (underEvaluation : Bool) :
      Change s (s.mark id underEvaluation)
  | kept {s : Session} (id : PromiseId) (value : Value) : Change s (s.keep id value)
  | entered {s : Session} (i : Invocation) : Change s (s.enter i)
  | left {s : Session} : Change s s.leave
  | recorded {s : Session} (loops : LoopTable) (stats : LoopStats) :
      Change s { s with loops, stats }
  | exported {s : Session} (name exported : Symbol) :
      Change s (SessionM.exportName name exported s).2
  | frozen {s : Session} (name : Symbol) : Change s (SessionM.sealNamespace name s).2
  | held {s : Session} (preserved : List Value) : Change s { s with preserved }

/-- The second session is a later one in the life of the first. -/
abbrev Life : Session → Session → Prop := Relation.ReflTransGen Change

theorem Registers.of_change (h : s.Change t) : s.Registers t := by
  cases h with
  | moved h => exact .of_move h
  | exported name exported => exact registers_exportName exported
  | frozen name => exact registers_sealNamespace
  | _ => exact .of_eq rfl rfl rfl

theorem Registers.of_life (h : s.Life t) : s.Registers t := by
  induction h with
  | refl => exact .refl s
  | tail _ hchange ih => exact ih.trans (.of_change hchange)

end Session

/-- Evaluation does nothing but change a session step by step. -/
def Contract.life (start : Session) : Contract where
  inv := start.Life
  rel := Session.Life
  raises _ _ := True
  lenient := False
  refl _ := .refl
  trans := .trans
  inv_of_rel := .trans
  raises_of_rel _ _ _ := trivial
  move _ hmove := .single (.moved hmove)
  raises_failure _ _ := trivial
  raises_overflow _ _ := trivial
  raises_exhausted _ := trivial
  raises_returning _ _ _ := trivial
  inv_mark hinv _ := hinv.tail (.marked _ _)
  unmark _ _ hrel := (hrel.head (.marked _ _)).tail (.marked _ _)
  keep value _ _ _ hrel := ((hrel.head (.marked _ _)).tail (.marked _ _)).tail (.kept _ value)
  raises_unmark _ _ _ := trivial
  inv_enter parent i hinv _ _ := (hinv.tail (.moved (.allocate parent))).tail (.entered i)
  leave i _ _ hrel := (hrel.head (.entered i)).tail .left
  raises_leave _ _ _ _ _ := trivial

theorem Contract.life_loopBlind (start : Session) : (Contract.life start).LoopBlind :=
  fun _ loops stats _ => .single (.recorded loops stats)

namespace Session

variable {s t : Session}

theorem life_evaluator (s : Session) (fuel : Nat) (task : Task) :
    s.Life (evaluator fuel task s).2 :=
  ((Contract.life_loopBlind s).closed.agree_evaluator fuel task s .refl).rel

theorem life_of_consults {fuel : Nat} {task inner : Task}
    (h : Evaluator.Consults (fun ev => ev.step task) (evaluator fuel) s inner t) : s.Life t :=
  have hclosed := (Contract.life_loopBlind s).closed
  Contract.inv_of_consults id (fun hev => hclosed.agree_step hev _)
    (hclosed.agree_evaluator fuel) .refl h

open SessionM in
/-- The registry is a stable bijection: at any time `t` in the life of a session, of which every
    evaluation is a part, its two maps are inverse to each other, different names own different
    environments, the base environment is the sealed namespace `base`, and an export is added at the
    end, once, or refused without a change.  A namespace from any time `s` before is still there,
    with its environment and its exports, and if it was sealed, as it was. -/
theorem registry_stable {options : Options} {kernels : KernelTable}
    (hs : (initial options kernels).Life s) (ht : s.Life t) :
    (∀ fuel task, t.Life (evaluator fuel task t).2 ∧
      ∀ inner u, Evaluator.Consults (fun ev => ev.step task) (evaluator fuel) t inner u →
        t.Life u) ∧
    (∀ env name, t.namespaces.nameOf? env = some name ↔
      ∃ ns, t.namespaces.get? name = some ns ∧ ns.env = env) ∧
    (∀ name other ns ns', t.namespaces.get? name = some ns → t.namespaces.get? other = some ns' →
      ns.env = ns'.env → name = other) ∧
    (∃ ns, t.namespaces.get? Namespaces.baseName = some ns ∧ ns.isSealed = true ∧
      ns.env = t.baseEnv) ∧
    (∀ name ns, s.namespaces.get? name = some ns → ∃ ns', t.namespaces.get? name = some ns' ∧
      ns'.env = ns.env ∧ t.heap.contains ns.env = true ∧ ns.exports <+: ns'.exports ∧
      (ns.isSealed = true → ns' = ns)) ∧
    (∀ name ns, t.namespaces.get? name = some ns → ns.name = name ∧ ns.exports.Nodup) ∧
    ∀ name ns exported, t.namespaces.get? name = some ns →
      (ns.isSealed = true →
        exportName name exported t = (.error (.failure (.namespaceSealed name)), t)) ∧
      (ns.isSealed = false → ∃ u, exportName name exported t = (.ok (), u) ∧
        ∀ other, u.namespaces.get? other =
          if other = name then some { ns with
            exports := if exported ∈ ns.exports then ns.exports else ns.exports ++ [exported] }
          else t.namespaces.get? other) := by
  have hsince := Registers.of_life ht (Registers.of_life hs (registered_initial _ _)).registered
  have hconsistent := hsince.registered.consistent
  refine ⟨fun fuel task => ⟨life_evaluator t fuel task, fun inner u => life_of_consults⟩,
    fun _ _ => hconsistent.inverse, fun name other ns ns' hns hns' henv => ?_, ?_,
    fun name ns hns => ?_, fun name ns hns => ⟨hconsistent.named hns, hconsistent.nodup hns⟩,
    fun name ns exported hns => ⟨fun hsealed => ?_, fun hopen => ?_⟩⟩
  · have hname := hconsistent.inverse.2 ⟨ns, hns, rfl⟩
    rw [henv, hconsistent.inverse.2 ⟨ns', hns', rfl⟩] at hname
    exact (Option.some.inj hname).symm
  · exact ⟨_, hconsistent.base, rfl, hsince.registered.base⟩
  · obtain ⟨ns', hns', hgrows⟩ := hsince.grows.kept hns
    have hlive := hsince.registered.live hns'
    rw [hgrows.env] at hlive
    exact ⟨ns', hns', hgrows.env, hlive, hgrows.exports, hgrows.isSealed⟩
  · have hrefused := Namespace.export?_of_isSealed hsealed exported
    rw [hconsistent.named hns] at hrefused
    exact changeNamespace_run_error hns hrefused
  · refine ⟨_, changeNamespace_run_ok hns (Namespace.export?_of_not_isSealed hopen exported),
      fun other => ?_⟩
    rw [Namespaces.get?_update, hconsistent.named hns]
    split
    · rename_i hother
      rw [hother, hns, Option.map_some]
    · rfl

open SessionM in
/-- The namespace `stats` is loaded, exports `sd` and is sealed. -/
theorem registry_stable_stats :
    let name : Symbol := ⟨"stats"⟩
    let start := Session.initial {} .empty
    let loaded := start.namespaces.load start.heap name
    let s := { start with namespaces := loaded.2.1, heap := loaded.2.2 }
    let t := (sealNamespace name (exportName name ⟨"sd"⟩ s).2).2
    s.namespaces.get? name = some ⟨name, loaded.1.env, [], false⟩ ∧
    t.namespaces.get? name = some ⟨name, loaded.1.env, [⟨"sd"⟩], true⟩ ∧
    t.namespaces.nameOf? loaded.1.env = some name ∧
    t.heap.contains loaded.1.env = true ∧
    exportName name ⟨"var"⟩ t = (.error (.failure (.namespaceSealed name)), t) := by
  intro name start loaded s t
  have hs : start.Life s := .single (.moved (.load name))
  have ht : s.Life t := .tail (.single (.exported name ⟨"sd"⟩)) (.frozen name)
  have hbefore : s.namespaces.get? name = some ⟨name, loaded.1.env, [], false⟩ := by rfl
  have hafter : t.namespaces.get? name = some ⟨name, loaded.1.env, [⟨"sd"⟩], true⟩ := by rfl
  obtain ⟨-, hinverse, -, -, hkept, -, hexport⟩ := registry_stable hs ht
  obtain ⟨-, -, -, hlive, -⟩ := hkept name _ hbefore
  exact ⟨hbefore, hafter, (hinverse _ _).2 ⟨_, hafter, rfl⟩, hlive,
    (hexport name _ ⟨"var"⟩ hafter).1 rfl⟩

end Session

end CallByNeed
