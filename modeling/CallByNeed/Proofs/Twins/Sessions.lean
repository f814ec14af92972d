import CallByNeed.Proofs.Bindings
import CallByNeed.Proofs.Heap.Layers
import CallByNeed.Proofs.Twins.Bridge
import CallByNeed.Proofs.Twins.Builtins
import Mathlib.Data.Option.Basic

/-!
# Twin sessions

Two sessions match over a bridge if environments that the bridge pairs have frames
with related bindings, if the promises of the bridge are in both sessions with
related contents, and if everything else that programs can notice is related
(`Bridge.Matches`).  Nothing is said of frames beside the bridge: the heaps may
differ in them, in the numbers of their slots and in the order of their free
slots.

A promise of the bridge contains no promise.  So it does not matter for the links
of a value how the other promises hang together.

`Twins` are two sessions that match, together with the bridge.  As long as both
do the same, the bridge only grows (`Twins.Onward`); this module has the single
steps.
-/

namespace CallByNeed

/-! ## Renaming the parts of a session -/

instance : Renames Binding := ⟨fun r binding => { binding with value := rename r binding.value }⟩
instance : Renames Frame := ⟨fun r f => ⟨rename r f.bindings, rename r f.parent⟩⟩

instance : Renames PromiseState where
  rename r
    | .waiting env underEvaluation => .waiting (rename r env) underEvaluation
    | .kept value => .kept (rename r value)

instance : Renames Promise := ⟨fun r p => ⟨rename r p.expr, rename r p.state⟩⟩
instance : Renames Namespace := ⟨fun r ns => { ns with env := rename r ns.env }⟩

instance : Renames Namespaces where
  rename r known :=
    { loaded := rename r known.loaded
      owners := known.owners.map fun (env, name) => (rename r env, name)
      baseEnv := rename r known.baseEnv }

theorem Namespaces.get?_rename {r : Renaming} (known : Namespaces) (name : Symbol) :
    (rename r known).get? name = rename r (known.get? name) :=
  Renaming.lookup_rename name known.loaded

theorem Namespaces.names_rename {r : Renaming} (known : Namespaces) :
    (rename r known).names = known.names := by
  simp [Namespaces.names, rename, List.map_map, Function.comp_def]

theorem Namespaces.imports_rename {r : Renaming} (known : Namespaces) (name : Symbol) :
    (rename r known).imports name = known.imports name := by
  simp only [Namespaces.imports, Namespaces.require, Namespaces.get?_rename]
  cases known.get? name <;> rfl

theorem Namespaces.registered?_rename {r : Renaming} (known : Namespaces) (name : String) :
    (rename r known).registered? name = rename r (known.registered? name) := by
  unfold Namespaces.registered?
  split
  · rfl
  · rw [Namespaces.get?_rename]
    cases known.get? ⟨name⟩ <;> rfl

instance : Renames LoopInstance := ⟨fun r known => { known with call := rename r known.call }⟩
instance : Renames LoopTable := ⟨fun r table => ⟨rename r table.instances⟩⟩

/-! ## Frames -/

/-- The heap fits together, its frames lie in layers, and none is inside one that is not there. -/
structure Heap.Sound (h : Heap) : Prop where
  wellFormed : h.WellFormed
  layered : h.Layered
  parents : ∀ {id f parent}, h.frame? id = some f → f.parent = some parent →
    h.contains parent = true

namespace Heap.Sound

variable {h : Heap} (hs : h.Sound) {outer : Option EnvId}
include hs

theorem deepens_allocate (houter : ∀ id ∈ outer, h.contains id = true) :
    h.Deepens (h.allocate outer).2 :=
  .allocate hs.wellFormed hs.parents houter

theorem allocate (houter : ∀ id ∈ outer, h.contains id = true) : (h.allocate outer).2.Sound := by
  have hdeepens := hs.deepens_allocate houter
  refine ⟨hs.wellFormed.allocate outer, hdeepens.layered hs.layered,
    fun {id f parent} hf hparent => ?_⟩
  have hlive {id : EnvId} (hid : h.contains id = true) :
      (h.allocate outer).2.contains id = true := by
    obtain ⟨g, hg⟩ := Option.isSome_iff_exists.1 hid
    obtain ⟨g', hg', -⟩ := hdeepens.parents hg
    exact contains_of_frame? hg'
  rw [Heap.allocate, hs.wellFormed.frame?_insert] at hf
  split at hf
  · cases hf
    exact hlive (houter parent hparent)
  · exact hlive (hs.parents hf hparent)

end Heap.Sound

theorem Heap.Sound.bound {s : Session} {env : EnvId} (hs : s.heap.Sound)
    (hlive : s.heap.contains env = true) (name : Symbol) (binding : Binding) :
    (s.bound env name binding).heap.Sound := by
  refine ⟨hs.wellFormed.updateSlot _ _, (Session.deepens_bound hlive name binding).layered
    hs.layered, fun {id f parent} hf hparent => ?_⟩
  obtain ⟨g, hg, hsame, -⟩ := Session.frame_of_bound hlive hf
  rw [Session.contains_bound hlive]
  exact hs.parents hg (hsame.trans hparent)

namespace Bridge

variable {b c : Bridge} {f f' : Frame} {binding binding' : Binding} {name : Symbol}

/-- Bindings to related values, and both to a default argument or neither. -/
structure Binds (b : Bridge) (binding binding' : Binding) : Prop where
  defaultArg : binding'.defaultArg = binding.defaultArg
  stores : b.Stores binding.value binding'.value

/-- Frames with related bindings, inside related frames. -/
structure MatchesFrame (b : Bridge) (f f' : Frame) : Prop where
  relates : b.Relates f f'
  storable : ∀ entry ∈ f.bindings, b.Storable entry.2.value

namespace MatchesFrame

theorem mono (h : b ≤ c) (hf : b.MatchesFrame f f') : c.MatchesFrame f f' :=
  ⟨hf.relates.mono h, fun entry hentry => (hf.storable entry hentry).mono h⟩

theorem parent (hf : b.MatchesFrame f f') : b.Relates f.parent f'.parent :=
  hf.relates.map fun _ _ => rfl

theorem get? (hf : b.MatchesFrame f f') (name : Symbol) :
    Option.Rel b.Binds (f.get? name) (f'.get? name) := by
  have hget : b.Relates (f.get? name) (f'.get? name) :=
    hf.relates.map (f := fun f => f.get? name) fun r f => Renaming.lookup_rename name f.bindings
  cases hbinding : f.get? name with
  | none =>
    rw [hbinding] at hget
    rw [hget.of_none]
    exact .none
  | some binding =>
    rw [hbinding] at hget
    obtain ⟨binding', hbinding', hrelates⟩ := relates_some.1 hget
    rw [hbinding']
    obtain ⟨before, after, hbindings, -⟩ := List.lookup_eq_some_iff.1 hbinding
    have hmem : (name, binding) ∈ f.bindings := by
      rw [hbindings]
      simp
    exact .some ⟨hrelates.same fun _ _ => rfl, hrelates.map fun _ _ => rfl, hf.storable _ hmem⟩

theorem empty {parent parent' : Option EnvId} (h : b.Relates parent parent') :
    b.MatchesFrame (.empty parent) (.empty parent') :=
  ⟨h.map (f := Frame.empty) fun _ _ => rfl, fun _ h => nomatch h⟩

theorem bind (hf : b.MatchesFrame f f') (hbinding : b.Binds binding binding') (name : Symbol) :
    b.MatchesFrame (f.bind name binding) (f'.bind name binding') := by
  obtain ⟨value, defaultArg⟩ := binding
  obtain ⟨value', defaultArg'⟩ := binding'
  obtain ⟨hdefault, hstores⟩ := hbinding
  obtain rfl : defaultArg = defaultArg' := hdefault.symm
  constructor
  case relates =>
    refine hf.relates.map₂ (f := fun f v => f.bind name ⟨v, defaultArg⟩) (fun r f v => ?_)
      hstores.relates
    exact congrArg (Frame.mk · _) (Renaming.rename_put name (⟨v, defaultArg⟩ : Binding) f.bindings)
  case storable =>
    intro entry hentry
    obtain rfl | hentry := Assoc.mem_put hentry
    · exact hstores.storable
    · exact hf.storable entry hentry

end MatchesFrame

/-! ## Sessions -/

/-- Invocations of related closures, with related arguments in related frames. -/
structure MatchesInvocation (b : Bridge) (i j : Invocation) : Prop where
  env : b.Relates i.env j.env
  callerEnv : b.Relates i.callerEnv j.callerEnv
  closure : b.Clean i.closure j.closure
  call : b.Clean i.call j.call
  args : b.Passes i.args j.args

theorem MatchesInvocation.mono (h : b ≤ c) {i j : Invocation} (hi : b.MatchesInvocation i j) :
    c.MatchesInvocation i j :=
  ⟨hi.env.mono h, hi.callerEnv.mono h, hi.closure.mono (bare_mono h), hi.call.mono (bare_mono h),
    hi.args.mono h⟩

/-- What the sessions have beside frames and promises is related, as far as programs notice it. -/
structure MatchesRest (b : Bridge) (s t : Session) : Prop where
  baseEnv : b.Relates s.baseEnv t.baseEnv
  globalEnv : b.Relates s.globalEnv t.globalEnv
  namespaces : b.Relates s.namespaces t.namespaces
  stack : List.Forall₂ b.MatchesInvocation s.stack t.stack
  loops : b.Clean s.loops t.loops
  preserved : b.Clean s.preserved t.preserved
  kernels : t.kernels = s.kernels
  stats : t.stats = s.stats
  identities : t.identities = s.identities
  maxCallDepth : t.options.maxCallDepth = s.options.maxCallDepth
  compileLoops : t.options.compileLoops = s.options.compileLoops
  /-- The namespaces are rooted where the session is. -/
  registryBase : s.namespaces.baseEnv = s.baseEnv
  owners : ∀ owner ∈ s.namespaces.owners, owner.1 ∈ s.namespaces.environments

variable {s t : Session}

theorem MatchesRest.mono (h : b ≤ c) (hst : b.MatchesRest s t) : c.MatchesRest s t where
  baseEnv := hst.baseEnv.mono h
  globalEnv := hst.globalEnv.mono h
  namespaces := hst.namespaces.mono h
  stack := hst.stack.imp fun _ _ => .mono h
  loops := hst.loops.mono (bare_mono h)
  preserved := hst.preserved.mono (bare_mono h)
  kernels := hst.kernels
  stats := hst.stats
  identities := hst.identities
  maxCallDepth := hst.maxCallDepth
  compileLoops := hst.compileLoops
  registryBase := hst.registryBase
  owners := hst.owners

/-- Environments of the bridge have matching frames. -/
def MatchesFrames (b : Bridge) (h h' : Heap) : Prop :=
  ∀ {id id'}, b.Relates id id' →
    ∃ f f', h.frame? id = some f ∧ h'.frame? id' = some f' ∧ b.MatchesFrame f f'

/-- Promises of the bridge have related contents, without promises. -/
def MatchesPromises (b : Bridge) (store store' : PromiseStore) : Prop :=
  ∀ {p}, b.promises p → ∃ cell cell', store.get? p = some cell ∧ store'.get? p = some cell' ∧
    b.Clean cell cell'

/-- Programs see the same in both sessions, as long as they start from what the bridge relates. -/
structure Matches (b : Bridge) (s t : Session) : Prop where
  left : s.heap.Sound
  right : t.heap.Sound
  frames : b.MatchesFrames s.heap t.heap
  promises : b.MatchesPromises s.promises t.promises
  size : t.promises.cells.size = s.promises.cells.size
  rest : b.MatchesRest s t

/-! ## Answers and promises -/

theorem relates_existing {value : Value} {answer : Answer} :
    b.Relates (.existing value) answer ↔
      ∃ value', answer = .existing value' ∧ b.Relates value value' :=
  relates_wrapped (fun _ _ => rfl) fun _ _ => Answer.existing.inj

theorem relates_fresh {elements : Elements} {attributes : Attributes} {answer : Answer} :
    b.Relates (.fresh elements attributes) answer ↔
      ∃ attributes', answer = .fresh elements attributes' ∧ b.Relates attributes attributes' :=
  relates_wrapped (f := Answer.fresh elements) (fun _ _ => rfl) fun _ _ h => (Answer.fresh.inj h).2

section

variable {p q : Promise} {st st' : PromiseState} {env : EnvId} {value : Value}

theorem Relates.expr (h : b.Relates p q) : b.Relates p.expr q.expr := h.map fun _ _ => rfl

theorem Relates.state (h : b.Relates p q) : b.Relates p.state q.state := h.map fun _ _ => rfl

theorem relates_mkPromise {expr expr' : Value} (hexpr : b.Relates expr expr')
    (hstate : b.Relates st st') : b.Relates (⟨expr, st⟩ : Promise) ⟨expr', st'⟩ :=
  hexpr.map₂ (f := Promise.mk) (fun _ _ _ => rfl) hstate

theorem relates_waiting {underEvaluation : Bool} :
    b.Relates (.waiting env underEvaluation) st ↔
      ∃ env', st = .waiting env' underEvaluation ∧ b.Relates env env' :=
  relates_wrapped (f := (PromiseState.waiting · underEvaluation)) (fun _ _ => rfl)
    fun _ _ h => (PromiseState.waiting.inj h).1

theorem relates_kept :
    b.Relates (.kept value) st ↔ ∃ value', st = .kept value' ∧ b.Relates value value' :=
  relates_wrapped (fun _ _ => rfl) fun _ _ => PromiseState.kept.inj

theorem Relates.mark (h : b.Relates p q) (underEvaluation : Bool) :
    b.Relates (p.mark underEvaluation) (q.mark underEvaluation) := by
  refine h.map fun r p => ?_
  obtain ⟨expr, _ | _⟩ := p <;> rfl

theorem Relates.keep {value' : Value} (h : b.Relates p q) (hvalue : b.Relates value value') :
    b.Relates (p.keep value) (q.keep value') :=
  relates_mkPromise h.expr (relates_kept.2 ⟨value', rfl, hvalue⟩)

end

/-! ## Single changes -/

namespace Matches

variable (h : b.Matches s t) {id id' : EnvId}
include h

theorem live_left (hid : b.Relates id id') : s.heap.contains id = true := by
  obtain ⟨f, f', hf, -⟩ := h.frames hid
  exact Heap.contains_of_frame? hf

theorem live_right (hid : b.Relates id id') : t.heap.contains id' = true := by
  obtain ⟨f, f', -, hf', -⟩ := h.frames hid
  exact Heap.contains_of_frame? hf'

/-- A frame that is new on both sides is one more pair of the bridge. -/
theorem allocate (hid : b.Relates id id') :
    ∃ c, b ≤ c ∧ c.Relates (s.heap.allocate (some id)).1 (t.heap.allocate (some id')).1 ∧
      c.Matches { s with heap := (s.heap.allocate (some id)).2 }
        { t with heap := (t.heap.allocate (some id')).2 } := by
  -- the bridge pairs frames that are there, so neither new reference is on it
  have hnone : b.env (s.heap.allocate (some id)).1 = none := by
    refine Option.eq_none_iff_forall_ne_some.2 fun target htarget => ?_
    obtain ⟨f, f', hf, -⟩ := h.frames (relates_env.2 htarget)
    rw [Heap.allocate, h.left.wellFormed.frame?_new] at hf
    cases hf
  have hnew (other : EnvId) : b.env other ≠ some (t.heap.allocate (some id')).1 := by
    intro hother
    obtain ⟨f, f', -, hf', -⟩ := h.frames (relates_env.2 hother)
    rw [Heap.allocate, h.right.wellFormed.frame?_new] at hf'
    cases hf'
  have hbc : b ≤ b.paired _ _ hnew := le_paired hnone
  have hinside : (b.paired _ _ hnew).Relates (some id) (some id') :=
    relates_some.2 ⟨id', rfl, hid.mono hbc⟩
  refine ⟨b.paired _ _ hnew, hbc, relates_env.2 (if_pos rfl), ?_⟩
  constructor
  case left => exact h.left.allocate fun _ he => by cases he; exact h.live_left hid
  case right => exact h.right.allocate fun _ he => by cases he; exact h.live_right hid
  case promises =>
    intro p hp
    obtain ⟨cell, cell', hcell, hcell', hclean⟩ := h.promises hp
    exact ⟨cell, cell', hcell, hcell', hclean.mono (bare_mono hbc)⟩
  case size => exact h.size
  case rest => exact { h.rest.mono hbc with }
  case frames =>
    intro other target hother
    have hpaired := relates_env.1 hother
    simp only [paired] at hpaired
    split at hpaired
    · rename_i hsame
      cases hpaired
      subst hsame
      exact ⟨_, _, h.left.wellFormed.frame?_insert_self _, h.right.wellFormed.frame?_insert_self _,
        .empty hinside⟩
    · rename_i hne
      obtain ⟨f, f', hf, hf', hmatches⟩ := h.frames (relates_env.2 hpaired)
      have hne' : target ≠ (t.heap.allocate (some id')).1 := fun he => hnew other (he ▸ hpaired)
      exact ⟨f, f', (h.left.wellFormed.frame?_insert _ _).trans ((if_neg hne).trans hf),
        (h.right.wellFormed.frame?_insert _ _).trans ((if_neg hne').trans hf'), hmatches.mono hbc⟩

theorem bound (hid : b.Relates id id') {binding binding' : Binding}
    (hbinding : b.Binds binding binding') (name : Symbol) :
    b.Matches (s.bound id name binding) (t.bound id' name binding') := by
  have hlive := h.live_left hid
  have hlive' := h.live_right hid
  refine { h with
    left := h.left.bound hlive _ _
    right := h.right.bound hlive' _ _
    frames := ?_
    rest := { h.rest with } }
  intro other target hother
  obtain ⟨f, f', hf, hf', hmatches⟩ := h.frames hother
  rw [Session.frame?_bound hlive, Session.frame?_bound hlive']
  -- the other side writes to the counterpart of the frame, and to no other frame
  by_cases hsame : other = id
  · have hsame' : target = id' := (eq_iff_eq hother hid).2 hsame
    subst hsame hsame'
    rw [if_pos rfl, if_pos rfl, hf, hf']
    exact ⟨_, _, rfl, rfl, hmatches.bind hbinding name⟩
  · have hsame' : target ≠ id' := fun he => hsame ((eq_iff_eq hother hid).1 he)
    rw [if_neg hsame, if_neg hsame']
    exact ⟨f, f', hf, hf', hmatches⟩

/-- A promise that is new on both sides has the same reference there. -/
theorem add {cell cell' : Promise} (hcell : b.Clean cell cell') :
    (t.promises.add cell').1 = (s.promises.add cell).1 ∧
      (b.holding (s.promises.add cell).1).Matches
        { s with promises := (s.promises.add cell).2 }
        { t with promises := (t.promises.add cell').2 } := by
  have hsame : (t.promises.add cell').1 = (s.promises.add cell).1 := congrArg PromiseId.mk h.size
  have hbc := b.le_holding (s.promises.add cell).1
  refine ⟨hsame, h.left, h.right, fun {other target} hother => ?_, fun {p} hp => ?_, ?_,
    { h.rest.mono hbc with }⟩
  · have hother : b.Relates other target :=
      relates_env.2 ((relates_env (b := b.holding _)).1 hother)
    obtain ⟨f, f', hf, hf', hmatches⟩ := h.frames hother
    exact ⟨f, f', hf, hf', hmatches.mono hbc⟩
  · -- the stores have the same size, so the new promise has the same number on both sides
    by_cases hpnew : p = (s.promises.add cell).1
    · subst hpnew
      refine ⟨cell, cell', PromiseStore.get?_add_self _ _, ?_, hcell⟩
      rw [← hsame]
      exact PromiseStore.get?_add_self _ _
    · obtain ⟨old, old', hold, hold', hclean⟩ := h.promises (hp.resolve_left hpnew)
      have hlt {store : PromiseStore} {q : Promise} (hq : store.get? p = some q) (new : Promise) :
          (store.add new).2.get? p = some q := by
        obtain ⟨hindex, -⟩ := Array.getElem?_eq_some_iff.1 hq
        rw [PromiseStore.add, PromiseStore.get?, Array.getElem?_push, if_neg (by omega)]
        exact hq
      exact ⟨old, old', hlt hold cell, hlt hold' cell', hclean⟩
  · simp [PromiseStore.add, h.size]

/-- The same change is made of a promise on both sides. -/
theorem update (p : PromiseId) {f f' : Promise → Promise}
    (hf : ∀ {cell cell'}, b.Clean cell cell' → b.Clean (f cell) (f' cell')) :
    b.Matches { s with promises := s.promises.update p f }
      { t with promises := t.promises.update p f' } := by
  refine { h with promises := fun {q} hq => ?_, size := ?_, rest := { h.rest with } }
  · obtain ⟨cell, cell', hcell, hcell', hclean⟩ := h.promises hq
    by_cases hsame : q = p
    · subst hsame
      exact ⟨_, _, PromiseStore.get?_update_self f hcell, PromiseStore.get?_update_self f' hcell',
        hf hclean⟩
    · refine ⟨cell, cell', ?_, ?_, hclean⟩
      · rw [PromiseStore.get?_update_of_ne f hsame, hcell]
      · rw [PromiseStore.get?_update_of_ne f' hsame, hcell']
  · simp [PromiseStore.update, h.size]

theorem mark (p : PromiseId) (underEvaluation : Bool) :
    b.Matches (s.mark p underEvaluation) (t.mark p underEvaluation) :=
  h.update p fun hcell => hcell.mark underEvaluation

theorem keep (p : PromiseId) {value value' : Value} (hvalue : b.Clean value value') :
    b.Matches (s.keep p value) (t.keep p value') :=
  h.update p fun hcell => hcell.keep hvalue

theorem enter {i j : Invocation} (hi : b.MatchesInvocation i j) :
    b.Matches (s.enter i) (t.enter j) :=
  { h with rest := { h.rest with stack := .cons hi h.rest.stack } }

theorem leave : b.Matches s.leave t.leave := by
  refine { h with rest := { h.rest with stack := ?_ } }
  have htail {l l' : List Invocation} (hl : List.Forall₂ b.MatchesInvocation l l') :
      List.Forall₂ b.MatchesInvocation l.tail l'.tail := by
    cases hl with
    | nil => exact .nil
    | cons _ hrest => exact hrest
  exact htail h.rest.stack

theorem get?_namespace (name : Symbol) :
    b.Relates (s.namespaces.get? name) (t.namespaces.get? name) :=
  h.rest.namespaces.map (f := (Namespaces.get? · name)) fun _ known => known.get?_rename name

/-- A namespace that is there on one side is there on both, and else it is new on both. -/
theorem load (name : Symbol) :
    ∃ c, b ≤ c ∧
      c.Relates (s.namespaces.load s.heap name).1 (t.namespaces.load t.heap name).1 ∧
      s.heap.Deepens (s.namespaces.load s.heap name).2.2 ∧
      t.heap.Deepens (t.namespaces.load t.heap name).2.2 ∧
      c.Matches
        { s with
          namespaces := (s.namespaces.load s.heap name).2.1
          heap := (s.namespaces.load s.heap name).2.2 }
        { t with
          namespaces := (t.namespaces.load t.heap name).2.1
          heap := (t.namespaces.load t.heap name).2.2 } := by
  have hget := h.get?_namespace name
  unfold Namespaces.load
  cases hname : s.namespaces.get? name with
  | some ns =>
    rw [hname] at hget
    obtain ⟨ns', hname', hns⟩ := relates_some.1 hget
    rw [hname']
    exact ⟨b, le_rfl, hns, .of_eq rfl, .of_eq rfl, { h with rest := { h.rest with } }⟩
  | none =>
    rw [hname] at hget
    rw [hget.of_none]
    -- a new namespace gets a frame inside the base environment
    have hbase : b.Relates s.namespaces.baseEnv t.namespaces.baseEnv :=
      h.rest.namespaces.map fun _ _ => rfl
    obtain ⟨c, hbc, hnew, hmatches⟩ := h.allocate hbase
    refine ⟨c, hbc, hnew.map (f := fun env => (⟨name, env, [], false⟩ : Namespace)) fun _ _ => rfl,
      h.left.deepens_allocate fun _ he => by cases he; exact h.live_left hbase,
      h.right.deepens_allocate fun _ he => by cases he; exact h.live_right hbase,
      { hmatches with rest := { hmatches.rest with namespaces := ?_, owners := ?_ } }⟩
    case refine_2 =>
      intro owner howner
      simp only [Namespaces.environments, List.map_append, List.mem_append] at howner ⊢
      obtain howner | howner := howner
      · exact .inl (h.rest.owners owner howner)
      · right
        rw [List.mem_singleton.1 howner]
        exact List.mem_singleton_self _
    refine (h.rest.namespaces.mono hbc).map₂ (f := fun (known : Namespaces) env =>
      { known with
        loaded := known.loaded ++ [(name, (⟨name, env, [], false⟩ : Namespace))]
        owners := known.owners ++ [(env, name)] }) (fun r known env => ?_) hnew
    simp [rename, List.map_append]

end Matches

end Bridge

/-- Two sessions in which programs see the same, over a bridge. -/
structure Twins where
  bridge : Bridge
  left : Session
  right : Session
  matched : bridge.Matches left right

namespace Twins

/-- The second twins come after the first ones: what was related is related still, and frames keep
    their parents. -/
structure Onward (w z : Twins) : Prop where
  bridge : w.bridge ≤ z.bridge
  left : w.left.heap.Deepens z.left.heap
  right : w.right.heap.Deepens z.right.heap

instance : Preorder Twins where
  le := Onward
  le_refl _ := ⟨le_rfl, .of_eq rfl, .of_eq rfl⟩
  le_trans _ _ _ h₁ h₂ :=
    ⟨h₁.bridge.trans h₂.bridge, h₁.left.trans h₂.left, h₁.right.trans h₂.right⟩

variable {w z : Twins} {α : Type} [Renames α] {a a' : α}

theorem Onward.relates (h : w ≤ z) (ha : w.bridge.Relates a a') : z.bridge.Relates a a' :=
  ha.mono h.bridge

theorem Onward.clean (h : w ≤ z) (ha : w.bridge.Clean a a') : z.bridge.Clean a a' :=
  ha.mono (Bridge.bare_mono h.bridge)

theorem Onward.passes (h : w ≤ z) {args args' : ArgList} (hargs : w.bridge.Passes args args') :
    z.bridge.Passes args args' :=
  hargs.mono h.bridge

end Twins

end CallByNeed
