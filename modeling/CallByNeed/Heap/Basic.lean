import CallByNeed.Assoc
import CallByNeed.Error

/-!
# Environments and their heap

A frame holds the bindings of one environment and a link to the enclosing one.
Frames live in the slots of a heap.  A slot that is freed goes onto a stack of
free slots and is used again before a new slot is made; its generation goes up
by one, so a reference to the old frame never reaches the new one
(`Heap.frame?`).

Actions that write to a frame and fail if it has been freed are in `HeapM`.
-/

namespace CallByNeed

/-- What a name is bound to.  `defaultArg` marks the promise of a formal's default expression. -/
structure Binding where
  value : Value
  defaultArg : Bool

/-- The bindings of one environment and the environment around it. -/
structure Frame where
  bindings : List (Symbol × Binding)
  parent : Option EnvId

namespace Frame

def empty (parent : Option EnvId) : Frame := ⟨[], parent⟩

def get? (f : Frame) (name : Symbol) : Option Binding := f.bindings.lookup name

def contains (f : Frame) (name : Symbol) : Bool := (f.get? name).isSome

def bind (f : Frame) (name : Symbol) (binding : Binding) : Frame :=
  { f with bindings := Assoc.put name binding f.bindings }

/-- Bind a name to a value that is no default argument. -/
def set (f : Frame) (name : Symbol) (value : Value) : Frame := f.bind name ⟨value, false⟩

/-- The names bound in this frame, in the order of their spelling. -/
def names (f : Frame) : List Symbol := Symbol.sortByName (f.bindings.map (·.1))

def size (f : Frame) : Nat := f.bindings.length

@[simp] theorem get?_empty (parent : Option EnvId) (name : Symbol) :
    (empty parent).get? name = none := rfl

@[simp] theorem get?_bind_self (f : Frame) (name : Symbol) (b : Binding) :
    (f.bind name b).get? name = some b := Assoc.lookup_put_self _ _ _

theorem get?_bind_of_ne {name other : Symbol} (f : Frame) (b : Binding) (h : other ≠ name) :
    (f.bind name b).get? other = f.get? other := Assoc.lookup_put_of_ne _ _ h

@[simp] theorem parent_bind (f : Frame) (name : Symbol) (b : Binding) :
    (f.bind name b).parent = f.parent := rfl

end Frame

/-- A place for a frame.  `generation` counts how often the place was freed, `marked` is set while
    a collection has reached the frame. -/
structure Slot where
  generation : UInt32
  frame : Option Frame
  marked : Bool

structure CollectorStats where
  collections : Nat
  framesFreed : Nat
  lastFreed : Nat
  liveFrames : Nat
  deriving DecidableEq, Repr

/-- The frames of a session. -/
structure Heap where
  slots : Array Slot
  /-- The empty slots, the one to be used next first. -/
  free : List Nat
  live : Nat
  allocatedSinceCollect : Nat
  stats : CollectorStats

namespace Heap

def empty : Heap := ⟨#[], [], 0, 0, ⟨0, 0, 0, 0⟩⟩

/-- The frame a reference stands for, if it has not been freed. -/
def frame? (h : Heap) (id : EnvId) : Option Frame :=
  match h.slots[id.index]? with
  | some slot => if slot.generation = id.generation then slot.frame else none
  | none => none

def contains (h : Heap) (id : EnvId) : Bool := (h.frame? id).isSome

/-- The frame a reference stands for; a freed one is an error. -/
def frame (h : Heap) (id : EnvId) : Except EvalError Frame :=
  match h.frame? id with
  | some f => .ok f
  | none => .error (.staleEnvironment id)

def generationOf (h : Heap) (index : Nat) : UInt32 :=
  match h.slots[index]? with
  | some slot => slot.generation
  | none => 0

/-- Place a frame in the slot freed last, or in a new slot. -/
def insert (h : Heap) (f : Frame) : EnvId × Heap :=
  let counted := { h with live := h.live + 1, allocatedSinceCollect := h.allocatedSinceCollect + 1 }
  match h.free with
  | index :: rest =>
    -- the slot counted up when it was freed, so no earlier reference fits it
    (⟨index, h.generationOf index⟩,
      { counted with
        free := rest
        slots := h.slots.modify index fun slot => { slot with frame := some f } })
  | [] => (⟨h.slots.size, 0⟩, { counted with slots := h.slots.push ⟨0, some f, false⟩ })

def allocate (h : Heap) (parent : Option EnvId) : EnvId × Heap := h.insert (.empty parent)

def parent (h : Heap) (id : EnvId) : Except EvalError (Option EnvId) := do
  return (← h.frame id).parent

/-- What a name is bound to in an environment itself. -/
def getLocal (h : Heap) (env : EnvId) (name : Symbol) : Except EvalError (Option Value) := do
  return ((← h.frame env).get? name).map (·.value)

def updateSlot (h : Heap) (index : Nat) (change : Frame → Frame) : Heap :=
  { h with
    slots := h.slots.modify index fun slot => { slot with frame := slot.frame.map change } }

/-- A frame that is there is seen changed. -/
theorem frame?_updateSlot_self {h : Heap} {id : EnvId} {f : Frame} (change : Frame → Frame)
    (hf : h.frame? id = some f) : (h.updateSlot id.index change).frame? id = some (change f) := by
  unfold frame? at hf ⊢
  cases hslot : h.slots[id.index]? with
  | none => simp [hslot] at hf
  | some slot =>
    simp only [hslot] at hf
    split at hf
    · rename_i hgen
      simp [updateSlot, Array.getElem?_modify, hslot, hgen, hf]
    · cases hf

/-- Every other frame is seen as before. -/
theorem frame?_updateSlot_of_ne {h : Heap} {id other : EnvId} (change : Frame → Frame)
    (hid : h.contains id) (hne : other ≠ id) :
    (h.updateSlot id.index change).frame? other = h.frame? other := by
  by_cases hindex : other.index = id.index
  · have hgen : other.generation ≠ id.generation := fun he =>
      hne (by cases other; cases id; simp_all)
    cases hslot : h.slots[id.index]? with
    | none => simp [frame?, updateSlot, Array.getElem?_modify, hindex, hslot]
    | some slot =>
      have hslotgen : slot.generation = id.generation := by
        by_cases heq : slot.generation = id.generation
        · exact heq
        · simp [contains, frame?, hslot, heq] at hid
      simp [frame?, updateSlot, Array.getElem?_modify, hindex, hslot, hslotgen, Ne.symm hgen]
  · simp [frame?, updateSlot, Array.getElem?_modify, Ne.symm hindex]

end Heap

abbrev HeapM := ExceptT EvalError (StateM Heap)

namespace HeapM

/-- Change a frame; a freed one is an error. -/
def modifyFrame (id : EnvId) (change : Frame → Frame) : HeapM Unit := do
  if (← get).contains id then modify fun h => h.updateSlot id.index change
  else throw (.staleEnvironment id)

def bind (env : EnvId) (name : Symbol) (value : Value) : HeapM Unit :=
  modifyFrame env fun f => f.set name value

/-- Bind a formal to the promise of its default expression. -/
def bindDefault (env : EnvId) (name : Symbol) (value : Value) : HeapM Unit :=
  modifyFrame env fun f => f.bind name ⟨value, true⟩

end HeapM

end CallByNeed
