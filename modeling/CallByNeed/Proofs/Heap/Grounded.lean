import CallByNeed.Proofs.Heap.Knots

/-!
# Collections come to an end

A value is grounded if every promise in it is there and none of them is a knot.  If
the values of a collection and those in the frames are grounded, the collection is
carried out (`Heap.exists_collect`).
-/

namespace CallByNeed

variable {store : PromiseStore} {v w : Value}

/-- Every promise in the value is there, and none of them contains itself. -/
def Value.Grounded (store : PromiseStore) (v : Value) : Prop :=
  ∀ p, v.Part store (.promise p) → (store.get? p).isSome = true ∧ ¬ store.Holds p p

theorem Value.Grounded.part (h : v.Grounded store) (hpart : v.Part store w) : w.Grounded store :=
  fun p hp => h p (hpart.trans hp)

theorem Value.Grounded.knotless (h : v.Grounded store) : v.Knotless store := fun p hp => (h p hp).2

/-- The values bound in the frame are grounded. -/
def Frame.Grounded (store : PromiseStore) (f : Frame) : Prop :=
  ∀ entry ∈ f.bindings, entry.2.value.Grounded store

theorem Frame.Grounded.knotless {f : Frame} (h : f.Grounded store) : f.Knotless store :=
  fun entry hentry => (h entry hentry).knotless

namespace Heap

variable {h : Heap} {roots : List EnvId} {values : List Value} {within : EnvId → Prop}

/-- Looking at frames of these environments leads to no others, and what is bound in the frames is
    grounded. -/
def GroundedWithin (h : Heap) (store : PromiseStore) (within : EnvId → Prop) : Prop :=
  ∀ {id f}, within id → h.frame? id = some f →
    f.Grounded store ∧ ∀ next, f.Mentions store next → within next

/-- A collection is carried out if it starts within environments of this kind, and its values are
    grounded. -/
theorem GroundedWithin.exists_collect (hm : h.GroundedWithin store within)
    (hroots : ∀ id ∈ roots, within id)
    (hvalues : ∀ v ∈ values, v.Grounded store ∧ ∀ id, v.Mentions store id → within id) :
    ∃ freed h', h.collect store roots values = some (freed, h') := by
  have hknotless : h.KnotlessWithin store within := fun hid hf =>
    ⟨(hm hid hf).1.knotless, (hm hid hf).2⟩
  exact hknotless.exists_collect hroots fun v hv =>
    ⟨(hvalues v hv).1.knotless, (hvalues v hv).2⟩

/-- A collection is carried out if its values and those bound in frames are grounded. -/
theorem exists_collect (hframes : ∀ id f, h.frame? id = some f → f.Grounded store)
    (hvalues : ∀ v ∈ values, v.Grounded store) :
    ∃ freed h', h.collect store roots values = some (freed, h') := by
  have hall : h.GroundedWithin store fun _ => True := fun _ hf =>
    ⟨hframes _ _ hf, fun _ _ => trivial⟩
  exact hall.exists_collect (fun _ _ => trivial) fun v hv => ⟨hvalues v hv, fun _ _ => trivial⟩

end Heap

end CallByNeed
