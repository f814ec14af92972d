import CallByNeed.Proofs.Bindings
import CallByNeed.Proofs.Dangling.Admitted
import CallByNeed.Proofs.Heap.Layers

/-!
# Sessions without dangling references

A session is closed if every environment that it holds on to is there: the roots
of a collection, the parents of the frames that are there, and what the values
mention that are bound in those frames or are roots themselves.  It is intact if
its parts fit together as the operations on them leave them, and quiet if no
value in it asks for a collection.

A session that is all of this is safe (`Session.Safe`).  From a safe session
evaluation goes on to safe ones, in which everything remains admitted
(`Session.Onward`); this module has the single steps.
-/

namespace CallByNeed

namespace Session

variable {s t u : Session} {v : Value} {id env : EnvId}

/-- The value is bound in a frame that is there, or is a root of collections. -/
inductive Stores (s : Session) : Value → Prop where
  | bound {id : EnvId} {f : Frame} {entry : Symbol × Binding} (hframe : s.heap.frame? id = some f)
    (hentry : entry ∈ f.bindings) : Stores s entry.2.value
  | root {v : Value} (h : v ∈ s.rootValues) : Stores s v

/-- Every environment that the session holds on to is there. -/
structure Closed (s : Session) : Prop where
  /-- The base and global environments, those of the namespaces, and two for each invocation. -/
  roots : ∀ id ∈ s.rootEnvs, s.heap.contains id = true
  registryBase : s.heap.contains s.namespaces.baseEnv = true
  owners : ∀ owner ∈ s.namespaces.owners, s.heap.contains owner.1 = true
  parents : ∀ {id f parent}, s.heap.frame? id = some f → f.parent = some parent →
    s.heap.contains parent = true
  stored : ∀ v, s.Stores v → s.Live v

/-- The parts of the session fit together. -/
structure Intact (s : Session) : Prop where
  wellFormed : s.heap.WellFormed
  registryBase : s.namespaces.baseEnv = s.baseEnv
  owners : ∀ owner ∈ s.namespaces.owners, owner.1 ∈ s.namespaces.environments

/-- No value in the session asks for a collection. -/
def Quiet (s : Session) : Prop := ∀ v, s.Stores v → v.Quiet s.promises

/-- The session is closed, intact and quiet. -/
structure Safe (s : Session) : Prop where
  intact : s.Intact
  roots : ∀ id ∈ s.rootEnvs, s.heap.contains id = true
  parents : ∀ {id f parent}, s.heap.frame? id = some f → f.parent = some parent →
    s.heap.contains parent = true
  stored : ∀ v, s.Stores v → s.Admits v

theorem safe_iff : s.Safe ↔ s.Closed ∧ s.Intact ∧ s.Quiet := by
  constructor
  · intro h
    have henv (id : EnvId) (hid : id ∈ s.namespaces.environments) : s.heap.contains id = true :=
      h.roots id (by simp [rootEnvs, hid])
    refine ⟨⟨h.roots, ?_, fun owner howner => henv _ (h.intact.owners owner howner), h.parents,
      fun v hv => (h.stored v hv).live⟩, h.intact, fun v hv => (h.stored v hv).quiet⟩
    rw [h.intact.registryBase]
    exact h.roots _ List.mem_cons_self
  · intro ⟨hclosed, hintact, hquiet⟩
    exact ⟨hintact, hclosed.roots, hclosed.parents,
      fun v hv => ⟨hclosed.stored v hv, hquiet v hv⟩⟩

/-! ## What a safe session has -/

/-- The session admits everything that the invocation refers to. -/
structure AdmitsInvocation (s : Session) (i : Invocation) : Prop where
  env : s.heap.contains i.env = true
  callerEnv : s.heap.contains i.callerEnv = true
  closure : s.Admits (.closure i.closure)
  call : s.Admits (.call i.call)
  args : s.AdmitsArgs i.args

theorem AdmitsInvocation.live {i : Invocation} (h : s.AdmitsInvocation i) (hid : id ∈ i.envs) :
    s.heap.contains id = true := by
  simp only [Invocation.envs, List.mem_cons, List.not_mem_nil, or_false] at hid
  obtain rfl | rfl := hid
  · exact h.env
  · exact h.callerEnv

theorem AdmitsInvocation.value {i : Invocation} (h : s.AdmitsInvocation i) (hv : v ∈ i.values) :
    s.Admits v := by
  simp only [Invocation.values, List.mem_cons, List.mem_map] at hv
  obtain rfl | rfl | ⟨arg, harg, rfl⟩ := hv
  · exact h.closure
  · exact h.call
  · exact h.args arg harg

namespace Safe

variable (hs : s.Safe)
include hs

theorem base : s.heap.contains s.baseEnv = true := hs.roots _ List.mem_cons_self

theorem registryBase : s.heap.contains s.namespaces.baseEnv = true := by
  rw [hs.intact.registryBase]
  exact hs.base

theorem global : s.heap.contains s.globalEnv = true := hs.roots _ (.tail _ List.mem_cons_self)

theorem namespaceEnv {ns : Namespace} {name : Symbol} (h : s.namespaces.get? name = some ns) :
    s.heap.contains ns.env = true := by
  refine hs.roots _ (.tail _ (.tail _ (List.mem_append_left _ ?_)))
  obtain ⟨before, after, hloaded, -⟩ := List.lookup_eq_some_iff.1 h
  rw [Namespaces.environments, hloaded]
  simp

theorem value (h : v ∈ s.rootValues) : s.Admits v := hs.stored v (.root h)

theorem invocation {i : Invocation} (h : i ∈ s.stack) : s.AdmitsInvocation i := by
  have henv (id : EnvId) (hid : id ∈ i.envs) : s.heap.contains id = true := by
    refine hs.roots _ (.tail _ (.tail _ (List.mem_append_right _ ?_)))
    exact List.mem_flatMap.2 ⟨i, h, hid⟩
  have hvalue (v : Value) (hv : v ∈ i.values) : s.Admits v :=
    hs.value (List.mem_append_left _ (List.mem_append_right _ (List.mem_flatMap.2 ⟨i, h, hv⟩)))
  constructor
  case env => exact henv _ (by simp [Invocation.envs])
  case callerEnv => exact henv _ (by simp [Invocation.envs])
  case closure => exact hvalue _ (by simp [Invocation.values])
  case call => exact hvalue _ (by simp [Invocation.values])
  case args =>
    intro arg harg
    exact hvalue _ (.tail _ (.tail _ (List.mem_map_of_mem harg)))

theorem binding {f : Frame} {name : Symbol} {b : Binding} (hframe : s.heap.frame? id = some f)
    (hget : f.get? name = some b) : s.Admits b.value := by
  obtain ⟨before, after, hbindings, -⟩ := List.lookup_eq_some_iff.1 hget
  have hmem : (name, b) ∈ f.bindings := by
    rw [hbindings]
    simp
  exact hs.stored _ (.bound hframe hmem)

end Safe

/-! ## Going on -/

/-- The second session is safe, whatever the first one admits it admits as well, and frames keep
    their parents. -/
structure Onward (s t : Session) : Prop where
  safe : t.Safe
  admits : ∀ {v}, s.Admits v → t.Admits v
  deepens : s.heap.Deepens t.heap

namespace Onward

theorem refl (hs : s.Safe) : s.Onward s := ⟨hs, id, .of_eq rfl⟩

theorem trans (h₁ : s.Onward t) (h₂ : t.Onward u) : s.Onward u :=
  ⟨h₂.safe, fun h => h₂.admits (h₁.admits h), h₁.deepens.trans h₂.deepens⟩

theorem live (h : s.Onward t) (hid : s.heap.contains id = true) : t.heap.contains id = true :=
  admits_environment.1 (h.admits (admits_environment.2 hid))

theorem args (h : s.Onward t) {args : ArgList} (hargs : s.AdmitsArgs args) : t.AdmitsArgs args :=
  fun arg harg => h.admits (hargs arg harg)

theorem attributes (h : s.Onward t) {attributes : Attributes}
    (hattributes : s.AdmitsAttributes attributes) : t.AdmitsAttributes attributes :=
  fun entry hentry => h.admits (hattributes entry hentry)

theorem invocation (h : s.Onward t) {i : Invocation} (hi : s.AdmitsInvocation i) :
    t.AdmitsInvocation i :=
  ⟨h.live hi.env, h.live hi.callerEnv, h.admits hi.closure, h.admits hi.call, h.args hi.args⟩

/-- The frames and the namespaces are the same. -/
theorem of_heap (hs : s.Safe) (hheap : t.heap = s.heap) (hnamespaces : t.namespaces = s.namespaces)
    (hbase : t.baseEnv = s.baseEnv) (hglobal : t.globalEnv = s.globalEnv)
    (hcells : ∀ id p, t.promises.get? id = some p → s.Admits (.promise id) → s.AdmitsPromise p)
    (hstack : ∀ i ∈ t.stack, ∀ id ∈ i.envs, s.heap.contains id = true)
    (hvalues : ∀ v ∈ t.rootValues, s.Admits v) : s.Onward t := by
  have hadmits {v : Value} (h : s.Admits v) : t.Admits v :=
    h.of_cells (fun id hid => hheap ▸ hid) hcells
  have hsafe : t.Safe := by
    constructor
    case intact =>
      exact ⟨hheap ▸ hs.intact.wellFormed, by rw [hnamespaces, hbase]; exact hs.intact.registryBase,
        hnamespaces ▸ hs.intact.owners⟩
    case roots =>
      intro id hid
      rw [rootEnvs, hbase, hglobal, hnamespaces] at hid
      rw [hheap]
      simp only [List.mem_cons, List.mem_append, List.mem_flatMap] at hid
      obtain rfl | rfl | hid | ⟨i, hi, hid⟩ := hid
      · exact hs.base
      · exact hs.global
      · exact hs.roots _ (.tail _ (.tail _ (List.mem_append_left _ hid)))
      · exact hstack i hi id hid
    case parents =>
      rw [hheap]
      exact hs.parents
    case stored =>
      intro v hv
      cases hv with
      | root h => exact hadmits (hvalues v h)
      | bound hframe hentry =>
        rw [hheap] at hframe
        exact hadmits (hs.stored _ (.bound hframe hentry))
  exact ⟨hsafe, hadmits, .of_eq hheap⟩

end Onward

namespace Safe

variable (hs : s.Safe)
include hs

/-! ### Promises -/

theorem onward_promises {promises : PromiseStore}
    (hcells : ∀ id p, promises.get? id = some p → s.Admits (.promise id) → s.AdmitsPromise p) :
    s.Onward { s with promises } :=
  .of_heap hs rfl rfl rfl rfl hcells (fun _ hi _ hid => (hs.invocation hi).live hid)
    fun _ => hs.value

theorem onward_add {p : Promise} (hp : s.AdmitsPromise p) :
    s.Onward { s with promises := (s.promises.add p).2 } := by
  refine hs.onward_promises fun id q hq hid => ?_
  rw [PromiseStore.get?, PromiseStore.add, Array.getElem?_push] at hq
  split at hq
  · cases hq
    exact hp
  · exact admits_promise.1 hid q hq

theorem onward_update (id : PromiseId) {f : Promise → Promise}
    (hf : ∀ p, s.AdmitsPromise p → s.AdmitsPromise (f p)) :
    s.Onward { s with promises := s.promises.update id f } := by
  refine hs.onward_promises fun other q hq hother => ?_
  rw [PromiseStore.get?, PromiseStore.update, Array.getElem?_modify] at hq
  split at hq
  · obtain ⟨p, hp, rfl⟩ := Option.map_eq_some_iff.1 hq
    exact hf p (admits_promise.1 hother p hp)
  · exact admits_promise.1 hother q hq

theorem onward_mark (id : PromiseId) (underEvaluation : Bool) :
    s.Onward (s.mark id underEvaluation) := by
  refine hs.onward_update id fun p hp => ?_
  obtain ⟨expr, ⟨env, mark⟩ | value⟩ := p
  · exact ⟨hp.expr, hp.env, hp.value⟩
  · exact hp

theorem onward_keep (id : PromiseId) {value : Value} (hvalue : s.Admits value) :
    s.Onward (s.keep id value) := by
  refine hs.onward_update id fun p hp => ?_
  constructor
  case expr => exact hp.expr
  case env => exact fun h => nomatch h
  case value =>
    intro kept h
    cases h
    exact hvalue

/-! ### Invocations and the record of loops -/

theorem onward_enter {i : Invocation} (hi : s.AdmitsInvocation i) : s.Onward (s.enter i) := by
  refine .of_heap hs rfl rfl rfl rfl (fun id p hp hid => admits_promise.1 hid p hp) ?_ ?_
  · intro j hj id hid
    obtain rfl | hj := List.mem_cons.1 hj
    · exact hi.live hid
    · exact (hs.invocation hj).live hid
  · intro v hv
    simp only [rootValues, enter, List.flatMap_cons, List.mem_append] at hv
    obtain (hv | hv | hv) | hv := hv
    · exact hs.value (by simp [rootValues, hv])
    · exact hi.value hv
    · exact hs.value (List.mem_append_left _ (List.mem_append_right _ hv))
    · exact hs.value (List.mem_append_right _ hv)

theorem onward_leave : s.Onward s.leave := by
  refine .of_heap hs rfl rfl rfl rfl (fun id p hp hid => admits_promise.1 hid p hp) ?_ ?_
  · exact fun i hi id hid => (hs.invocation (List.mem_of_mem_tail hi)).live hid
  · intro v hv
    simp only [rootValues, leave, List.mem_append, List.mem_flatMap] at hv
    obtain (hv | ⟨i, hi, hv⟩) | hv := hv
    · exact hs.value (by simp [rootValues, hv])
    · exact (hs.invocation (List.mem_of_mem_tail hi)).value hv
    · exact hs.value (List.mem_append_right _ hv)

/-- Calls are entered into the record of loops, counters count, identities are given out. -/
theorem onward_record {loops : LoopTable} {stats : LoopStats} {identities : Nat}
    (hcalls : ∀ call ∈ loops.calls, s.Admits (.call call)) :
    s.Onward { s with loops, stats, identities } := by
  refine .of_heap hs rfl rfl rfl rfl (fun id p hp hid => admits_promise.1 hid p hp) ?_ ?_
  · exact fun i hi id hid => (hs.invocation hi).live hid
  · intro v hv
    simp only [rootValues, List.mem_append, List.mem_map] at hv
    obtain hv | ⟨call, hcall, rfl⟩ := hv
    · exact hs.value (List.mem_append_left _ (List.mem_append.2 hv))
    · exact hcalls call hcall

theorem call_mem_loops {call : Call} (h : call ∈ s.loops.calls) : s.Admits (.call call) :=
  hs.value (List.mem_append_right _ (List.mem_map_of_mem h))

/-! ### Frames -/

/-- A heap that has the frames of the old one is safe if its frames are inside frames of the old
    one and bind what was admitted. -/
theorem onward_frames {heap : Heap} (hwf : heap.WellFormed)
    (hcontains : ∀ id, s.heap.contains id = true → heap.contains id = true)
    (hparents : ∀ {id f parent}, heap.frame? id = some f → f.parent = some parent →
      s.heap.contains parent = true)
    (hbindings : ∀ {id f}, heap.frame? id = some f → ∀ entry ∈ f.bindings, s.Admits entry.2.value)
    (hdeepens : s.heap.Deepens heap) : s.Onward { s with heap } := by
  have hadmits {v : Value} (h : s.Admits v) : ({ s with heap } : Session).Admits v :=
    h.of_heap rfl hcontains
  have hsafe : ({ s with heap } : Session).Safe := by
    constructor
    case intact => exact ⟨hwf, hs.intact.registryBase, hs.intact.owners⟩
    case roots => exact fun id hid => hcontains id (hs.roots id hid)
    case parents => exact fun hf hparent => hcontains _ (hparents hf hparent)
    case stored =>
      intro v hv
      cases hv with
      | root h => exact hadmits (hs.value h)
      | bound hf hentry => exact hadmits (hbindings hf _ hentry)
  exact ⟨hsafe, hadmits, hdeepens⟩

theorem onward_bound (hlive : s.heap.contains env = true) (name : Symbol) {binding : Binding}
    (hvalue : s.Admits binding.value) : s.Onward (s.bound env name binding) := by
  refine hs.onward_frames (hs.intact.wellFormed.updateSlot _ _)
    (fun id hid => (contains_bound hlive name binding id).trans hid) (fun hf hparent => ?_)
    (fun hf entry hentry => ?_) (deepens_bound hlive name binding)
  · obtain ⟨g, hg, hsame, -⟩ := frame_of_bound hlive hf
    exact hs.parents hg (hsame.trans hparent)
  · obtain ⟨g, hg, -, hentries⟩ := frame_of_bound hlive hf
    obtain rfl | hold := hentries entry hentry
    · exact hvalue
    · exact hs.stored _ (.bound hg hold)

theorem onward_allocate {parent : Option EnvId}
    (hparent : ∀ id ∈ parent, s.heap.contains id = true) :
    s.Onward { s with heap := (s.heap.allocate parent).2 } := by
  have hframe (id : EnvId) : (s.heap.allocate parent).2.frame? id =
      if id = (s.heap.allocate parent).1 then some (.empty parent) else s.heap.frame? id :=
    hs.intact.wellFormed.frame?_insert _ id
  refine hs.onward_frames (hs.intact.wellFormed.allocate parent)
    (fun id hid => Heap.contains_insert hid _) (fun {id f outer} hf houter => ?_)
    (fun {id f} hf entry hentry => ?_) (.allocate hs.intact.wellFormed hs.parents hparent)
  · rw [hframe] at hf
    split at hf
    · cases hf
      exact hparent outer houter
    · exact hs.parents hf houter
  · rw [hframe] at hf
    split at hf
    · cases hf
      cases hentry
    · exact hs.stored _ (.bound hf hentry)

theorem contains_allocate (parent : Option EnvId) :
    (s.heap.allocate parent).2.contains (s.heap.allocate parent).1 = true := by
  rw [Heap.contains, Heap.allocate, hs.intact.wellFormed.frame?_insert_self]
  rfl

/-! ### Namespaces -/

theorem onward_namespaces {namespaces : Namespaces} (hbase : namespaces.baseEnv = s.baseEnv)
    (howners : ∀ owner ∈ namespaces.owners, owner.1 ∈ namespaces.environments)
    (henvs : ∀ id ∈ namespaces.environments, s.heap.contains id = true) :
    s.Onward { s with namespaces } := by
  refine ⟨⟨⟨hs.intact.wellFormed, hbase, howners⟩, ?_, hs.parents, ?_⟩,
    fun h => ⟨h.live, h.quiet⟩, .of_eq rfl⟩
  · intro id hid
    simp only [rootEnvs, List.mem_cons, List.mem_append] at hid
    obtain rfl | rfl | hid | hid := hid
    · exact hs.base
    · exact hs.global
    · exact henvs id hid
    · exact hs.roots _ (.tail _ (.tail _ (List.mem_append_right _ hid)))
  · intro v hv
    have hstored : s.Admits v := by
      cases hv with
      | root h => exact hs.value h
      | bound hframe hentry => exact hs.stored _ (.bound hframe hentry)
    exact ⟨hstored.live, hstored.quiet⟩

theorem onward_load (name : Symbol) :
    s.Onward { s with
      namespaces := (s.namespaces.load s.heap name).2.1
      heap := (s.namespaces.load s.heap name).2.2 } ∧
    (s.namespaces.load s.heap name).2.2.contains (s.namespaces.load s.heap name).1.env = true := by
  unfold Namespaces.load
  cases hknown : s.namespaces.get? name with
  | some ns => exact ⟨.refl hs, hs.namespaceEnv hknown⟩
  | none =>
    have hbase : ∀ id ∈ some s.namespaces.baseEnv, s.heap.contains id = true := by
      intro id hid
      cases hid
      exact hs.registryBase
    have halloc := hs.onward_allocate hbase
    have hnew := hs.contains_allocate (some s.namespaces.baseEnv)
    refine ⟨halloc.trans (halloc.safe.onward_namespaces hs.intact.registryBase ?_ ?_), hnew⟩
    · intro owner howner
      simp only [Namespaces.environments, List.map_append, List.mem_append] at howner ⊢
      obtain howner | howner := howner
      · exact .inl (hs.intact.owners owner howner)
      · right
        cases List.mem_singleton.1 howner
        exact List.mem_singleton_self _
    · intro id hid
      simp only [Namespaces.environments, List.map_append, List.mem_append] at hid
      obtain hid | hid := hid
      · exact halloc.live (hs.roots _ (.tail _ (.tail _ (List.mem_append_left _ hid))))
      · cases List.mem_singleton.1 hid
        exact hnew

end Safe

/-! ## A new session -/

theorem frame?_initial (options : Options) (kernels : KernelTable) (id : EnvId) :
    (initial options kernels).heap.frame? id =
      if id = ⟨1, 0⟩ then some (.empty (some ⟨0, 0⟩))
      else if id = ⟨0, 0⟩ then some baseFrame
      else none := by
  have hbase : (Heap.empty.insert baseFrame).2.WellFormed := Heap.wellFormed_empty.insert baseFrame
  have hnew : Heap.empty.frame? id = none := by simp [Heap.frame?, Heap.empty]
  have hglobal := hbase.frame?_insert (.empty (some ⟨0, 0⟩)) id
  rw [Heap.wellFormed_empty.frame?_insert, hnew] at hglobal
  exact hglobal

/-- A frame of a new session is the global one, which is empty, or the base frame around it. -/
theorem frame_of_initial {options : Options} {kernels : KernelTable} {id : EnvId} {f : Frame}
    (hf : (initial options kernels).heap.frame? id = some f) :
    id = ⟨1, 0⟩ ∧ f = .empty (some ⟨0, 0⟩) ∨ id = ⟨0, 0⟩ ∧ f = baseFrame := by
  rw [frame?_initial] at hf
  split at hf
  · rename_i hid
    cases hf
    exact .inl ⟨hid, rfl⟩
  · split at hf
    · rename_i hid
      cases hf
      exact .inr ⟨hid, rfl⟩
    · cases hf

theorem layered_initial (options : Options) (kernels : KernelTable) :
    (initial options kernels).heap.Layered := by
  refine ⟨fun id => id.index, fun {id f parent} hf hparent => ?_⟩
  obtain ⟨rfl, rfl⟩ | ⟨-, rfl⟩ := frame_of_initial hf
  · cases hparent
    exact Nat.zero_lt_one
  · cases hparent

theorem safe_initial (options : Options) (kernels : KernelTable) :
    (initial options kernels).Safe := by
  have hcontains (id : EnvId) : (initial options kernels).heap.contains id = true ↔
      id = ⟨1, 0⟩ ∨ id = ⟨0, 0⟩ := by
    rw [Heap.contains, frame?_initial]
    by_cases hglobal : id = ⟨1, 0⟩
    · simp [hglobal]
    · by_cases hbase : id = ⟨0, 0⟩ <;> simp [hglobal, hbase]
  constructor
  case intact =>
    refine ⟨(Heap.wellFormed_empty.insert baseFrame).allocate _, rfl, fun owner howner => ?_⟩
    cases List.mem_singleton.1 howner
    exact List.mem_singleton_self _
  case roots =>
    intro id hid
    rw [hcontains]
    simp only [rootEnvs, List.mem_cons, List.mem_append] at hid
    obtain rfl | rfl | hid | hid := hid
    · exact .inr rfl
    · exact .inl rfl
    · cases List.mem_singleton.1 hid
      exact .inr rfl
    · cases hid
  case parents =>
    intro id f parent hframe hparent
    rw [hcontains]
    obtain ⟨-, rfl⟩ | ⟨-, rfl⟩ := frame_of_initial hframe
    · cases hparent
      exact .inr rfl
    · cases hparent
  case stored =>
    intro v hv
    cases hv with
    | root h => cases h
    | bound hframe hentry =>
      obtain ⟨-, rfl⟩ | ⟨-, rfl⟩ := frame_of_initial hframe
      · cases hentry
      · obtain ⟨⟨b, i⟩, hb, rfl⟩ := List.mem_map.1 hentry
        have hmem : b ∈ Builtin.base := List.fst_mem_of_mem_zipIdx hb
        have hquiet : Builtin.eager (.introspect .collect) ∉ Builtin.base := by decide
        exact admits_builtin _ fun he => hquiet (he ▸ hmem)

end Session

end CallByNeed
