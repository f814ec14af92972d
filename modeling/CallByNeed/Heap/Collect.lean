import CallByNeed.Heap.Basic
import CallByNeed.Promise

/-!
# Garbage collection

A collection keeps the frames that are reachable from its roots and frees the
others.  What a value refers to is read off its structure (`Value.links`), and a
frame refers to its parent and to whatever its bindings refer to
(`Frame.links`).  Marking proceeds in rounds: each round marks the frames on
the frontier that are not marked yet, and what they refer to is the next
frontier.  A round that marks nothing is the last one, so there are no more
rounds than slots.

A promise whose own value contains it again has no finite list of references;
`Value.links` answers `none` for it, and then so does the collection.
-/

namespace CallByNeed

namespace Value

mutual

/-- The environments that a value refers to, where `ofPromise` gives those of a promise. -/
def linksBy (ofPromise : PromiseId → Option (List EnvId)) : Value → Option (List EnvId)
  | environment id => some [id]
  | closure ⟨_, formals, body, env⟩ => do
    return env :: ((← argsLinksBy ofPromise formals) ++ (← linksBy ofPromise body))
  | promise id => ofPromise id
  | call ⟨_, function, args⟩ => do
    return (← linksBy ofPromise function) ++ (← argsLinksBy ofPromise args)
  | list args => argsLinksBy ofPromise args
  | dots args => argsLinksBy ofPromise args
  | vector ⟨_, _, ⟨entries⟩⟩ => entriesLinksBy ofPromise entries
  | null => some []
  | symbol _ => some []
  | builtin _ _ => some []

def argsLinksBy (ofPromise : PromiseId → Option (List EnvId)) :
    List (Arg Value) → Option (List EnvId)
  | [] => some []
  | ⟨_, value⟩ :: rest => do
    return (← linksBy ofPromise value) ++ (← argsLinksBy ofPromise rest)

def entriesLinksBy (ofPromise : PromiseId → Option (List EnvId)) :
    List (Symbol × Value) → Option (List EnvId)
  | [] => some []
  | (_, value) :: rest => do
    return (← linksBy ofPromise value) ++ (← entriesLinksBy ofPromise rest)

end

end Value

namespace PromiseStore

/-- The environments that a promise refers to, through at most `fuel` promises inside each other:
    its environment, and those of its value and of its expression. -/
def linksWithin (store : PromiseStore) : (fuel : Nat) → PromiseId → Option (List EnvId)
  | 0, _ => none
  | fuel + 1, id =>
    match store.get? id with
    | none => some []
    | some p => do
      let ofState ← match p.state with
        | .waiting env _ => some [env]
        | .kept value => value.linksBy (store.linksWithin fuel)
      return ofState ++ (← p.expr.linksBy (store.linksWithin fuel))

/-- The environments that a promise refers to; `none` if it contains itself.  No more promises than
    there are can be inside each other, and one more step finds that a promise is not there. -/
def links (store : PromiseStore) (id : PromiseId) : Option (List EnvId) :=
  store.linksWithin (store.cells.size + 1) id

end PromiseStore

/-- The environments that a value refers to; `none` if a promise in it contains itself. -/
def Value.links (store : PromiseStore) (v : Value) : Option (List EnvId) :=
  v.linksBy store.links

def valuesLinks (store : PromiseStore) : List Value → Option (List EnvId)
  | [] => some []
  | v :: rest => do return (← v.links store) ++ (← valuesLinks store rest)

/-- The environments that a frame refers to: its parent, and those of its bindings. -/
def Frame.links (store : PromiseStore) (f : Frame) : Option (List EnvId) := do
  return f.parent.toList ++ (← valuesLinks store (f.bindings.map (·.2.value)))

/-- Whether a slot holds a frame that marking did not reach. -/
def Slot.isGarbage (slot : Slot) : Bool := slot.frame.isSome && !slot.marked

/-- A slot after a collection: unmarked, and empty with a new generation if its frame was not
    reached. -/
def Slot.swept (slot : Slot) : Slot :=
  if slot.isGarbage then ⟨slot.generation + 1, none, false⟩ else { slot with marked := false }

namespace Heap

/-- The frame a reference stands for, if it is not marked yet. -/
def unmarked? (h : Heap) (id : EnvId) : Option Frame :=
  match h.slots[id.index]? with
  | some slot => if slot.generation = id.generation && !slot.marked then slot.frame else none
  | none => none

def setMark (h : Heap) (index : Nat) : Heap :=
  { h with slots := h.slots.modify index fun slot => { slot with marked := true } }

/-- One round of marking: the frames of the frontier are marked, and what the newly marked ones
    refer to is collected in `next`. -/
def markRound (store : PromiseStore) :
    List EnvId → (next : List EnvId) → Heap → Option (List EnvId × Heap)
  | [], next, h => some (next, h)
  | id :: rest, next, h =>
    match h.unmarked? id with
    -- freed, or reached before
    | none => markRound store rest next h
    | some f => do
      let links ← f.links store
      markRound store rest (links ++ next) (h.setMark id.index)

/-- Rounds of marking until the frontier is empty. -/
def markRounds (store : PromiseStore) : (fuel : Nat) → List EnvId → Heap → Option Heap
  | 0, _, h => some h
  | _ + 1, [], h => some h
  | fuel + 1, frontier, h => do
    let (next, h) ← markRound store frontier [] h
    markRounds store fuel next h

/-- Mark every frame that is reachable from the given references. -/
def mark (h : Heap) (store : PromiseStore) (roots : List EnvId) : Option Heap :=
  markRounds store (h.slots.size + 1) roots h

/-- The positions of the slots whose frames were not reached, in ascending order. -/
def garbage (h : Heap) : List Nat :=
  (List.range h.slots.size).filter fun i => (h.slots[i]?).any Slot.isGarbage

/-- Free the frames that were not reached and remove all marks. -/
def sweep (h : Heap) : Nat × Heap :=
  let freed := h.garbage
  let live := h.live - freed.length
  (freed.length,
    { slots := h.slots.map Slot.swept
      free := freed.reverse ++ h.free
      live := live
      allocatedSinceCollect := 0
      stats :=
        { collections := h.stats.collections + 1
          framesFreed := h.stats.framesFreed + freed.length
          lastFreed := freed.length
          liveFrames := live } })

/-- Free every frame that is not reachable from `roots` or `values`, and answer how many there
    were; `none` if a promise met on the way contains itself. -/
def collect (h : Heap) (store : PromiseStore) (roots : List EnvId) (values : List Value) :
    Option (Nat × Heap) := do
  let links ← valuesLinks store values
  let marked ← h.mark store (roots ++ links)
  return marked.sweep

end Heap

end CallByNeed
