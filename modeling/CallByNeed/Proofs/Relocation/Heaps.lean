import CallByNeed.Proofs.Heap.Knots
import CallByNeed.Proofs.Twins.Sessions

/-!
# Relocating promises

A relocation gives the promises of a store other positions in a larger store, which
may have promises in between that nothing refers to.  Environments and builtins stay
what they are.  Whatever looks at a heap sees the same in the heap with the promises
relocated, and a collection frees the same frames.
-/

namespace CallByNeed

/-- The renaming of promises only. -/
def Renaming.ofPromises (promise : PromiseId → PromiseId) : Renaming := ⟨id, promise, id⟩

/-- A new position for each promise, in a store made from the one in which it was. -/
structure Relocation where
  promise : PromiseId → PromiseId
  store : PromiseStore → PromiseStore
  /-- The sizes of the stores that the relocation is made for; there are no gaps between them. -/
  sizes : Nat → Prop
  between : ∀ {least size most}, least ≤ size → size ≤ most → sizes least → sizes most → sizes size
  get? : ∀ {st}, sizes st.cells.size → ∀ p,
    (store st).get? (promise p) = rename (.ofPromises promise) (st.get? p)
  update : ∀ {st} {f g : Promise → Promise}, sizes st.cells.size →
    (∀ cell, g (rename (.ofPromises promise) cell) = rename (.ofPromises promise) (f cell)) →
    ∀ p, (store st).update (promise p) g = store (st.update p f)
  add : ∀ {st cell}, sizes st.cells.size → sizes (st.add cell).2.cells.size →
    (store st).add (rename (.ofPromises promise) cell) =
      (promise (st.add cell).1, store (st.add cell).2)

/-- The relocation is made for the store. -/
def Relocation.Covers (ρ : Relocation) (st : PromiseStore) : Prop := ρ.sizes st.cells.size

instance : Renames Slot := ⟨fun r slot => { slot with frame := rename r slot.frame }⟩
instance : Renames Heap := ⟨fun r h => { h with slots := h.slots.map (rename r) }⟩
instance : Renames Scope := ⟨fun r scope => { scope with frames := rename r scope.frames }⟩

namespace Relocation

variable {ρ : Relocation} {α : Type} [Renames α]

/-- The same with the promises relocated. -/
abbrev move (ρ : Relocation) : α → α := rename (.ofPromises ρ.promise)

@[simp] theorem move_env? (env : Option EnvId) : ρ.move env = env := by
  cases env <;> rfl

@[simp] theorem exchange_ofPromises (f : PromiseId → PromiseId) (b : Builtin) :
    b.exchange (.ofPromises f) = b := by
  unfold Builtin.exchange
  split <;> rfl

/-! ## Links -/

section

variable {f g : PromiseId → Option (List EnvId)}

mutual

theorem linksBy_rename (hfg : ∀ p, g (ρ.promise p) = f p) (v : Value) :
    (v.rename (.ofPromises ρ.promise)).linksBy g = v.linksBy f := by
  match v with
  | .null | .symbol _ | .builtin _ _ | .environment _ => rfl
  | .promise p => exact hfg p
  | .vector ⟨_, _, ⟨entries⟩⟩ =>
    simp only [Value.rename, Value.linksBy, entriesLinksBy_rename hfg entries]
  | .call ⟨_, function, args⟩ =>
    simp only [Value.rename, Value.linksBy, linksBy_rename hfg function,
      argsLinksBy_rename hfg args]
  | .list args | .dots args =>
    simp only [Value.rename, Value.linksBy, argsLinksBy_rename hfg args]
  | .closure ⟨_, formals, body, env⟩ =>
    simp only [Value.rename, Value.linksBy, argsLinksBy_rename hfg formals,
      linksBy_rename hfg body]
    rfl

theorem argsLinksBy_rename (hfg : ∀ p, g (ρ.promise p) = f p) (args : List (Arg Value)) :
    Value.argsLinksBy g (Value.renameArgs (.ofPromises ρ.promise) args) =
      Value.argsLinksBy f args := by
  match args with
  | [] => rfl
  | ⟨tag, value⟩ :: rest =>
    simp only [Value.renameArgs, Value.argsLinksBy, linksBy_rename hfg value,
      argsLinksBy_rename hfg rest]

theorem entriesLinksBy_rename (hfg : ∀ p, g (ρ.promise p) = f p)
    (entries : List (Symbol × Value)) :
    Value.entriesLinksBy g (Value.renameEntries (.ofPromises ρ.promise) entries) =
      Value.entriesLinksBy f entries := by
  match entries with
  | [] => rfl
  | (name, value) :: rest =>
    simp only [Value.renameEntries, Value.entriesLinksBy, linksBy_rename hfg value,
      entriesLinksBy_rename hfg rest]

end

end

variable {st : PromiseStore}

theorem linksWithin_move (hst : ρ.Covers st) (fuel : Nat) (p : PromiseId) :
    (ρ.store st).linksWithin fuel (ρ.promise p) = st.linksWithin fuel p := by
  induction fuel generalizing p with
  | zero => rfl
  | succ fuel ih =>
    have hlinks (v : Value) : (ρ.move v).linksBy ((ρ.store st).linksWithin fuel) =
        v.linksBy (st.linksWithin fuel) := linksBy_rename ih v
    unfold PromiseStore.linksWithin
    rw [ρ.get? hst]
    cases st.get? p with
    | none => rfl
    | some cell =>
      obtain ⟨expr, ⟨env, underEvaluation⟩ | value⟩ := cell
      · show (do
          let ofState ← some [env]
          return ofState ++ (← (ρ.move expr).linksBy ((ρ.store st).linksWithin fuel))) = _
        rw [hlinks]
      · show (do
          let ofState ← (ρ.move value).linksBy ((ρ.store st).linksWithin fuel)
          return ofState ++ (← (ρ.move expr).linksBy ((ρ.store st).linksWithin fuel))) = _
        rw [hlinks, hlinks]

/-- A value refers to the same environments.  The larger store allows for more promises inside each
    other, which makes no difference. -/
theorem links_move (hst : ρ.Covers st) (v : Value) :
    (ρ.move v).links (ρ.store st) = v.links st := by
  have hfuel (fuel : Nat) : (ρ.move v).linksBy ((ρ.store st).linksWithin fuel) =
      v.linksBy (st.linksWithin fuel) := linksBy_rename (linksWithin_move hst fuel) v
  cases hlinks : v.links st with
  | none =>
    refine Option.eq_none_iff_forall_ne_some.2 fun ids hids => ?_
    have hknotless : v.Knotless st := Value.knotless_of_linksBy ((hfuel _).symm.trans hids)
    obtain ⟨ids', hids'⟩ := hknotless.exists_links
    cases hlinks.symm.trans hids'
  | some ids =>
    have hmoved := (hfuel _).trans hlinks
    obtain ⟨ids', hids'⟩ := (Value.knotless_of_linksBy hmoved).exists_links
    rw [hids', Value.linksBy_unique hids' hmoved]

theorem valuesLinks_move (hst : ρ.Covers st) (values : List Value) :
    valuesLinks (ρ.store st) (ρ.move values) = valuesLinks st values := by
  induction values with
  | nil => rfl
  | cons v rest ih =>
    show (do return (← (ρ.move v).links (ρ.store st)) ++
      (← valuesLinks (ρ.store st) (ρ.move rest))) = _
    rw [links_move hst, ih]
    rfl

/-! ## Frames -/

theorem get?_move (f : Frame) (name : Symbol) : (ρ.move f).get? name = ρ.move (f.get? name) :=
  Renaming.lookup_rename name f.bindings

@[simp] theorem parent_move (f : Frame) : (ρ.move f).parent = f.parent := move_env? f.parent

theorem bind_move (f : Frame) (name : Symbol) (binding : Binding) :
    (ρ.move f).bind name (ρ.move binding) = ρ.move (f.bind name binding) :=
  congrArg (Frame.mk · (ρ.move f.parent)) (Renaming.rename_put name binding f.bindings)

theorem frameLinks_move (hst : ρ.Covers st) (f : Frame) :
    (ρ.move f).links (ρ.store st) = f.links st := by
  have hvalues : (ρ.move f).bindings.map (·.2.value) = ρ.move (f.bindings.map (·.2.value)) := by
    show (f.bindings.map _).map _ = (f.bindings.map _).map _
    rw [List.map_map, List.map_map]
    rfl
  simp only [Frame.links, parent_move, hvalues, valuesLinks_move hst]

/-! ## Looking at a heap -/

variable {h : Heap} {env : EnvId} {name : Symbol}

theorem getElem?_move (h : Heap) (i : Nat) : (ρ.move h).slots[i]? = ρ.move h.slots[i]? :=
  Array.getElem?_map

@[simp] theorem size_move (h : Heap) : (ρ.move h).slots.size = h.slots.size := Array.size_map

theorem frame?_move (h : Heap) (id : EnvId) : (ρ.move h).frame? id = ρ.move (h.frame? id) := by
  unfold Heap.frame?
  rw [getElem?_move]
  cases h.slots[id.index]? with
  | none => rfl
  | some slot =>
    show (if slot.generation = id.generation then ρ.move slot.frame else none) = ρ.move (ite _ _ _)
    by_cases hgen : slot.generation = id.generation
    · rw [if_pos hgen, if_pos hgen]
    · rw [if_neg hgen, if_neg hgen]
      rfl

@[simp] theorem contains_move (h : Heap) (id : EnvId) :
    (ρ.move h).contains id = h.contains id := by
  rw [Heap.contains, frame?_move]
  exact Renaming.isSome_rename _

theorem frame_move (h : Heap) (id : EnvId) : (ρ.move h).frame id = ρ.move (h.frame id) := by
  unfold Heap.frame
  rw [frame?_move]
  cases h.frame? id <;> rfl

theorem parentOf_move (h : Heap) (id : EnvId) : (ρ.move h).parent id = h.parent id := by
  unfold Heap.parent
  rw [frame_move]
  cases h.frame id with
  | error e => rfl
  | ok f => exact congrArg Except.ok (parent_move f)

theorem getLocal_move (h : Heap) (env : EnvId) (name : Symbol) :
    (ρ.move h).getLocal env name = ρ.move (h.getLocal env name) := by
  unfold Heap.getLocal
  rw [frame_move]
  cases h.frame env with
  | error e => rfl
  | ok f =>
    show Except.ok (((ρ.move f).get? name).map (·.value)) = .ok (ρ.move ((f.get? name).map _))
    rw [get?_move]
    cases f.get? name <;> rfl

theorem methodsTable_move (h : Heap) (env : EnvId) :
    (ρ.move h).methodsTable env = h.methodsTable env := by
  unfold Heap.methodsTable
  rw [getLocal_move]
  rcases h.getLocal env methodsTableName with e | _ | value
  · rfl
  · rfl
  · cases value <;> rfl

theorem scopeWithin_move (h : Heap) (fuel : Nat) (start : Option EnvId) :
    (ρ.move h).scopeWithin fuel start = ρ.move (h.scopeWithin fuel start) := by
  induction fuel generalizing start with
  | zero => cases start <;> rfl
  | succ fuel ih =>
    cases start with
    | none => rfl
    | some id =>
      unfold Heap.scopeWithin
      rw [frame?_move]
      cases h.frame? id with
      | none => rfl
      | some f =>
        show Scope.mk ((id, ρ.move f) :: ((ρ.move h).scopeWithin fuel (ρ.move f).parent).frames)
          ((ρ.move h).scopeWithin fuel (ρ.move f).parent).dangling = _
        rw [parent_move, ih]
        rfl

theorem scopeFrom_move (h : Heap) (start : Option EnvId) :
    (ρ.move h).scopeFrom start = ρ.move (h.scopeFrom start) := by
  rw [Heap.scopeFrom, size_move, scopeWithin_move]
  rfl

theorem findSome?_move (frames : List (EnvId × Frame)) (name : Symbol) :
    (ρ.move frames).findSome? (fun (id, f) => (f.get? name).map (id, ·)) =
      ρ.move (frames.findSome? fun (id, f) => (f.get? name).map (id, ·)) := by
  induction frames with
  | nil => rfl
  | cons entry rest ih =>
    obtain ⟨id, f⟩ := entry
    show List.findSome? _ ((id, ρ.move f) :: ρ.move rest) = _
    rw [List.findSome?_cons, List.findSome?_cons, ih]
    dsimp only
    rw [get?_move]
    cases f.get? name <;> rfl

theorem owner?_move (scope : Scope) (name : Symbol) :
    (ρ.move scope).owner? name = ρ.move (scope.owner? name) := by
  obtain ⟨frames, dangling⟩ := scope
  show Scope.owner? ⟨ρ.move frames, dangling⟩ name = _
  unfold Scope.owner?
  dsimp only
  rw [findSome?_move]
  generalize List.findSome? _ frames = found
  cases found with
  | some found => rfl
  | none => cases dangling <;> rfl

theorem find_move (h : Heap) (env : EnvId) (name : Symbol) :
    (ρ.move h).find env name = ρ.move (h.find env name) := by
  unfold Heap.find Heap.scope
  rw [scopeFrom_move, owner?_move]
  rcases (h.scopeFrom (some env)).owner? name with e | _ | owner <;> rfl

theorem lookup_move (h : Heap) (env : EnvId) (name : Symbol) :
    (ρ.move h).lookup env name = ρ.move (h.lookup env name) := by
  unfold Heap.lookup
  rw [find_move]
  rcases h.find env name with e | _ | owner <;> rfl

theorem nonLocalTarget_move (h : Heap) (env : EnvId) (name : Symbol) (global : EnvId) :
    (ρ.move h).nonLocalTarget env name global = h.nonLocalTarget env name global := by
  unfold Heap.nonLocalTarget
  rw [parentOf_move]
  cases h.parent env with
  | error e => rfl
  | ok parent =>
    show ((ρ.move h).scopeFrom parent).owner? name >>= _ =
      (h.scopeFrom parent).owner? name >>= _
    rw [scopeFrom_move, owner?_move]
    rcases (h.scopeFrom parent).owner? name with e | _ | owner <;> rfl

/-! ## Changing a heap -/

theorem modify_map {γ : Type} {φ : γ → γ} (f g : γ → γ) (hfg : ∀ a, g (φ a) = φ (f a))
    (items : Array γ) (i : Nat) : (items.map φ).modify i g = (items.modify i f).map φ := by
  refine Array.ext_getElem? fun j => ?_
  simp only [Array.getElem?_modify, Array.getElem?_map]
  split
  · cases items[j]? with
    | none => rfl
    | some a => exact congrArg some (hfg a)
  · rfl

theorem updateSlot_move {f g : Frame → Frame} (hfg : ∀ frame, g (ρ.move frame) = ρ.move (f frame))
    (h : Heap) (i : Nat) : (ρ.move h).updateSlot i g = ρ.move (h.updateSlot i f) := by
  have hslots :
      (h.slots.map ρ.move).modify i (fun slot => { slot with frame := slot.frame.map g }) =
      (h.updateSlot i f).slots.map ρ.move := by
    refine modify_map (fun slot : Slot => { slot with frame := slot.frame.map f }) _
      (fun slot => ?_) h.slots i
    obtain ⟨generation, frame, marked⟩ := slot
    cases frame with
    | none => rfl
    | some frame => exact congrArg (fun f => Slot.mk generation (some f) marked) (hfg frame)
  exact congrArg (fun slots => { h with slots }) hslots

theorem insert_move (h : Heap) (f : Frame) :
    (ρ.move h).insert (ρ.move f) = ((h.insert f).1, ρ.move (h.insert f).2) := by
  obtain ⟨slots, free, live, allocatedSinceCollect, stats⟩ := h
  cases free with
  | nil =>
    show (EnvId.mk (slots.map ρ.move).size 0,
      Heap.mk ((slots.map ρ.move).push (ρ.move ⟨0, some f, false⟩)) _ _ _ _) = _
    rw [Array.size_map, ← Array.map_push]
    rfl
  | cons index rest =>
    -- renaming changes neither the free list nor the generations, so the same slot is taken
    have hmodify :
        (slots.map ρ.move).modify index (fun slot => { slot with frame := some (ρ.move f) }) =
        (slots.modify index fun slot => { slot with frame := some f }).map ρ.move := by
      refine modify_map (fun slot : Slot => { slot with frame := some f }) _ (fun slot => ?_) slots
        index
      rfl
    have hgeneration : Heap.generationOf (ρ.move ⟨slots, index :: rest, live, allocatedSinceCollect,
        stats⟩) index = Heap.generationOf ⟨slots, index :: rest, live, allocatedSinceCollect,
        stats⟩ index := by
      unfold Heap.generationOf
      rw [getElem?_move]
      cases slots[index]? <;> rfl
    show (EnvId.mk index (Heap.generationOf (ρ.move _) index), Heap.mk _ _ _ _ _) = _
    rw [hgeneration]
    exact congrArg (fun slots => (_, Heap.mk slots _ _ _ _)) hmodify

theorem allocate_move (h : Heap) (parent : Option EnvId) :
    (ρ.move h).allocate parent = ((h.allocate parent).1, ρ.move (h.allocate parent).2) := by
  have hempty : Frame.empty parent = ρ.move (Frame.empty parent) :=
    congrArg (Frame.mk []) (move_env? parent).symm
  rw [Heap.allocate, hempty, insert_move]
  rfl

/-! ## Collections -/

theorem unmarked?_move (h : Heap) (id : EnvId) :
    (ρ.move h).unmarked? id = ρ.move (h.unmarked? id) := by
  unfold Heap.unmarked?
  rw [getElem?_move]
  cases h.slots[id.index]? with
  | none => rfl
  | some slot =>
    show (if (slot.generation = id.generation && !slot.marked) = true then ρ.move slot.frame
      else none) = ρ.move (ite _ _ _)
    by_cases hunmarked : (slot.generation = id.generation && !slot.marked) = true
    · rw [if_pos hunmarked, if_pos hunmarked]
    · rw [if_neg hunmarked, if_neg hunmarked]
      rfl

theorem setMark_move (h : Heap) (i : Nat) : (ρ.move h).setMark i = ρ.move (h.setMark i) := by
  have hslots : (h.slots.map ρ.move).modify i (fun slot => { slot with marked := true }) =
      (h.setMark i).slots.map ρ.move := by
    refine modify_map (fun slot : Slot => { slot with marked := true }) _ (fun slot => ?_) h.slots i
    rfl
  exact congrArg (fun slots => { h with slots }) hslots

theorem markRound_move (hst : ρ.Covers st) (frontier next : List EnvId) (h : Heap) :
    Heap.markRound (ρ.store st) frontier next (ρ.move h) =
      (Heap.markRound st frontier next h).map fun (next, h) => (next, ρ.move h) := by
  induction frontier generalizing next h with
  | nil => rfl
  | cons id rest ih =>
    unfold Heap.markRound
    rw [unmarked?_move]
    cases h.unmarked? id with
    | none => exact ih next h
    | some f =>
      show (ρ.move f).links (ρ.store st) >>= _ = Option.map _ (f.links st >>= _)
      rw [frameLinks_move hst]
      cases f.links st with
      | none => rfl
      | some links =>
        show Heap.markRound (ρ.store st) rest (links ++ next) ((ρ.move h).setMark id.index) =
          (Heap.markRound st rest (links ++ next) (h.setMark id.index)).map _
        rw [setMark_move]
        exact ih _ _

theorem markRounds_move (hst : ρ.Covers st) (fuel : Nat) (frontier : List EnvId) (h : Heap) :
    Heap.markRounds (ρ.store st) fuel frontier (ρ.move h) =
      (Heap.markRounds st fuel frontier h).map ρ.move := by
  induction fuel generalizing frontier h with
  | zero => rfl
  | succ fuel ih =>
    cases frontier with
    | nil => rfl
    | cons first rest =>
      simp only [Heap.markRounds]
      rw [markRound_move hst]
      cases Heap.markRound st (first :: rest) [] h with
      | none => rfl
      | some result => exact ih result.1 result.2

theorem sweep_move (h : Heap) : (ρ.move h).sweep = (h.sweep.1, ρ.move h.sweep.2) := by
  -- whether a slot is garbage does not depend on what its frame binds
  have hgarbage (slot : Slot) : (ρ.move slot).isGarbage = slot.isGarbage := by
    obtain ⟨generation, frame, marked⟩ := slot
    cases frame <;> rfl
  have hswept (slot : Slot) : (ρ.move slot).swept = ρ.move slot.swept := by
    unfold Slot.swept
    rw [hgarbage]
    cases slot.isGarbage <;> rfl
  have hpositions : (ρ.move h).garbage = h.garbage := by
    unfold Heap.garbage
    rw [size_move]
    refine List.filter_congr fun i _ => ?_
    rw [getElem?_move]
    cases h.slots[i]? with
    | none => rfl
    | some slot => exact hgarbage slot
  have hslots : (ρ.move h).slots.map Slot.swept = (h.slots.map Slot.swept).map ρ.move := by
    show (h.slots.map _).map _ = _
    rw [Array.map_map, Array.map_map]
    exact Array.map_congr_left fun slot _ => hswept slot
  unfold Heap.sweep
  rw [hpositions, hslots]
  rfl

theorem collect_move (hst : ρ.Covers st) (h : Heap) (roots : List EnvId) (values : List Value) :
    (ρ.move h).collect (ρ.store st) roots (ρ.move values) =
      (h.collect st roots values).map fun (freed, h) => (freed, ρ.move h) := by
  unfold Heap.collect
  rw [valuesLinks_move hst]
  cases valuesLinks st values with
  | none => rfl
  | some links =>
    show
      Heap.markRounds (ρ.store st) ((ρ.move h).slots.size + 1) (roots ++ links) (ρ.move h) >>= _ =
      Option.map _ (h.mark st (roots ++ links) >>= _)
    rw [size_move, markRounds_move hst, Heap.mark]
    cases Heap.markRounds st (h.slots.size + 1) (roots ++ links) h with
    | none => rfl
    | some m => exact congrArg some (sweep_move m)

end Relocation

end CallByNeed
