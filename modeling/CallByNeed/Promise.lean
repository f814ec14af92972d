import CallByNeed.Value.Basic

/-!
# Promises

A promise is an expression whose value is computed at most once.  It is either
waiting, with the environment in which its expression is to be evaluated, or it
is kept, with its value and no environment any more.  A waiting promise is
marked while it is under evaluation, so that a promise which needs its own value
is noticed.  The promises of a session live in a store; a reference is a
position in it.
-/

namespace CallByNeed

/-- How far a promise has got. -/
inductive PromiseState where
  | waiting (env : EnvId) (underEvaluation : Bool)
  | kept (value : Value)

/-- An expression whose value is computed at most once. -/
structure Promise where
  expr : Value
  state : PromiseState

namespace Promise

def env? (p : Promise) : Option EnvId :=
  match p.state with
  | .waiting env _ => some env
  | .kept _ => none

def value? (p : Promise) : Option Value :=
  match p.state with
  | .waiting _ _ => none
  | .kept value => some value

def isKept (p : Promise) : Bool := p.value?.isSome

def mark (underEvaluation : Bool) (p : Promise) : Promise :=
  match p.state with
  | .waiting env _ => { p with state := .waiting env underEvaluation }
  | .kept _ => p

def keep (value : Value) (p : Promise) : Promise := { p with state := .kept value }

end Promise

/-- The promises of a session, oldest first. -/
structure PromiseStore where
  cells : Array Promise

namespace PromiseStore

def empty : PromiseStore := ⟨#[]⟩

def get? (store : PromiseStore) (id : PromiseId) : Option Promise := store.cells[id.index]?

def add (store : PromiseStore) (p : Promise) : PromiseId × PromiseStore :=
  (⟨store.cells.size⟩, ⟨store.cells.push p⟩)

def update (store : PromiseStore) (id : PromiseId) (f : Promise → Promise) : PromiseStore :=
  ⟨store.cells.modify id.index f⟩

/-- Whether the promise is there and its value is not known. -/
def isWaiting (store : PromiseStore) (id : PromiseId) : Bool :=
  (store.get? id).any fun p => !p.isKept

theorem get?_add_self (store : PromiseStore) (p : Promise) :
    (store.add p).2.get? (store.add p).1 = some p := by
  simp [add, get?]

theorem get?_update_self {store : PromiseStore} {id : PromiseId} {p : Promise}
    (f : Promise → Promise) (h : store.get? id = some p) :
    (store.update id f).get? id = some (f p) := by
  simp only [get?] at h
  simp [update, get?, Array.getElem?_modify, h]

theorem get?_update_of_ne {store : PromiseStore} {id other : PromiseId} (f : Promise → Promise)
    (h : other ≠ id) : (store.update id f).get? other = store.get? other := by
  have hne : id.index ≠ other.index := fun he => h (by cases id; cases other; simp_all)
  simp [update, get?, Array.getElem?_modify, hne]

/-- Promises that are not alike are two promises. -/
theorem ne_of_get? {store : PromiseStore} {id other : PromiseId} {p q : Promise}
    (hp : store.get? id = some p) (hq : store.get? other = some q) (h : p ≠ q) : other ≠ id := by
  rintro rfl
  exact h (Option.some.inj (hp.symm.trans hq))

end PromiseStore

end CallByNeed
