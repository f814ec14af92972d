import CallByNeed.Proofs.Run

/-!
# Sessions that bind alike

Two values are alike if they differ at most in the identity of a vector.  Two
sessions are alike if every frame of the one binds the same names to alike
values as the frame in its place in the other, and nothing else differs but the
count of identities and the record of loops (`Session.Alike`).  Binding a name
anew and binding two names in either order make alike sessions.
-/

namespace CallByNeed

/-! ## Optional parts -/

section

variable {α : Type} {r : α → α → Prop}

theorem rel_refl (hr : ∀ a, r a a) (x : Option α) : Option.Rel r x x := by
  cases x with
  | none => exact .none
  | some a => exact .some (hr a)

theorem rel_trans (hr : ∀ {a b c}, r a b → r b c → r a c) {x y z : Option α}
    (hxy : Option.Rel r x y) (hyz : Option.Rel r y z) : Option.Rel r x z := by
  cases hxy with
  | none => exact hyz
  | some hab =>
    cases hyz with
    | some hbc => exact .some (hr hab hbc)

theorem rel_map {f g : α → α} (hr : ∀ {a b}, r a b → r (f a) (g b)) {x y : Option α}
    (h : Option.Rel r x y) : Option.Rel r (x.map f) (y.map g) := by
  cases h with
  | none => exact .none
  | some hab => exact .some (hr hab)

end

/-! ## Values and bindings -/

/-- The same value, or vectors with the same elements and attributes. -/
inductive Value.Alike : Value → Value → Prop where
  | refl (value : Value) : Alike value value
  | vector (a b : Identity) (elements : Elements) (attributes : Attributes) :
      Alike (.vector ⟨a, elements, attributes⟩) (.vector ⟨b, elements, attributes⟩)

theorem Value.Alike.trans {u v w : Value} (huv : u.Alike v) (hvw : v.Alike w) : u.Alike w := by
  cases huv with
  | refl => exact hvw
  | vector a b elements attributes =>
    cases hvw with
    | refl => exact .vector ..
    | vector => exact .vector ..

structure Binding.Alike (b c : Binding) : Prop where
  value : b.value.Alike c.value
  defaultArg : c.defaultArg = b.defaultArg

namespace Binding.Alike

theorem refl (b : Binding) : b.Alike b := ⟨.refl _, rfl⟩

theorem trans {b c d : Binding} (hbc : b.Alike c) (hcd : c.Alike d) : b.Alike d :=
  ⟨hbc.value.trans hcd.value, hcd.defaultArg.trans hbc.defaultArg⟩

end Binding.Alike

/-! ## Frames -/

/-- Frames in the same place that bind the same names to alike values. -/
structure Frame.Alike (f g : Frame) : Prop where
  parent : g.parent = f.parent
  bindings : ∀ name, Option.Rel Binding.Alike (f.get? name) (g.get? name)

namespace Frame.Alike

variable {f g k : Frame} {b c : Binding}

theorem refl (f : Frame) : f.Alike f := ⟨rfl, fun _ => rel_refl .refl _⟩

theorem trans (hfg : f.Alike g) (hgk : g.Alike k) : f.Alike k :=
  ⟨hgk.parent.trans hfg.parent,
    fun name => rel_trans .trans (hfg.bindings name) (hgk.bindings name)⟩

theorem bind (h : f.Alike g) (hb : b.Alike c) (name : Symbol) :
    (f.bind name b).Alike (g.bind name c) := by
  refine ⟨h.parent, fun other => ?_⟩
  by_cases hother : other = name
  · subst hother
    rw [get?_bind_self, get?_bind_self]
    exact .some hb
  · rw [get?_bind_of_ne _ _ hother, get?_bind_of_ne _ _ hother]
    exact h.bindings other

/-- What a name was bound to before does not matter. -/
theorem bind_bind_self (h : f.Alike g) (name : Symbol) (b c : Binding) :
    ((f.bind name b).bind name c).Alike (g.bind name c) := by
  refine ⟨h.parent, fun other => ?_⟩
  by_cases hother : other = name
  · subst hother
    rw [get?_bind_self, get?_bind_self]
    exact .some (.refl c)
  · simp only [get?_bind_of_ne _ _ hother]
    exact h.bindings other

/-- Two names can be bound in either order. -/
theorem bind_comm (h : f.Alike g) {name other : Symbol} (hne : name ≠ other) (b c : Binding) :
    ((f.bind name b).bind other c).Alike ((g.bind other c).bind name b) := by
  refine ⟨h.parent, fun third => ?_⟩
  by_cases hname : third = name
  · subst hname
    rw [get?_bind_of_ne _ _ hne, get?_bind_self, get?_bind_self]
    exact .some (.refl b)
  · by_cases hother : third = other
    · subst hother
      rw [get?_bind_self, get?_bind_of_ne _ _ hname, get?_bind_self]
      exact .some (.refl c)
    · simp only [get?_bind_of_ne _ _ hname, get?_bind_of_ne _ _ hother]
      exact h.bindings third

end Frame.Alike

/-! ## Heaps -/

structure Slot.Alike (slot other : Slot) : Prop where
  generation : other.generation = slot.generation
  marked : other.marked = slot.marked
  frame : Option.Rel Frame.Alike slot.frame other.frame

/-- Heaps with alike slots in the same places. -/
structure Heap.Alike (h k : Heap) : Prop where
  slots : ∀ index : Nat, Option.Rel Slot.Alike h.slots[index]? k.slots[index]?
  same : k = { h with slots := k.slots }

theorem Slot.Alike.trans {a b c : Slot} (hab : a.Alike b) (hbc : b.Alike c) : a.Alike c :=
  ⟨hbc.generation.trans hab.generation, hbc.marked.trans hab.marked,
    rel_trans .trans hab.frame hbc.frame⟩

namespace Heap.Alike

variable {h k l : Heap}

theorem refl (h : Heap) : h.Alike h :=
  ⟨fun _ => rel_refl (fun slot => ⟨rfl, rfl, rel_refl .refl slot.frame⟩) _, rfl⟩

theorem trans (hhk : h.Alike k) (hkl : k.Alike l) : h.Alike l := by
  refine ⟨fun index => rel_trans .trans (hhk.slots index) (hkl.slots index), ?_⟩
  rw [hkl.same, hhk.same]

/-- Changes that make alike frames of alike frames make alike heaps. -/
theorem updateSlot (hhk : h.Alike k) {f g : Frame → Frame}
    (hfg : ∀ {a b : Frame}, a.Alike b → (f a).Alike (g b)) (index : Nat) :
    (h.updateSlot index f).Alike (k.updateSlot index g) := by
  refine ⟨fun other => ?_, by rw [hhk.same]; rfl⟩
  simp only [Heap.updateSlot, Array.getElem?_modify]
  split
  · exact rel_map (fun hslot => ⟨hslot.generation, hslot.marked, rel_map hfg hslot.frame⟩)
      (hhk.slots other)
  · exact hhk.slots other

end Heap.Alike

theorem Heap.updateSlot_updateSlot (h : Heap) (index : Nat) (f g : Frame → Frame) :
    (h.updateSlot index f).updateSlot index g = h.updateSlot index fun frame => g (f frame) := by
  simp only [updateSlot, Heap.mk.injEq, and_true]
  refine Array.ext_getElem? fun i => ?_
  simp only [Array.getElem?_modify]
  split
  · cases h.slots[i]? with
    | none => rfl
    | some slot => simp [Function.comp_def]
  · rfl

/-! ## Sessions -/

namespace Session

/-- The sessions differ at most in the identities of vectors that are bound, in the count of
    identities and in the record of loops. -/
structure Alike (s t : Session) : Prop where
  heap : s.heap.Alike t.heap
  same : t =
    { s with heap := t.heap, identities := t.identities, loops := t.loops, stats := t.stats }

namespace Alike

variable {s t u : Session} {env : EnvId} {name other : Symbol} {b c : Binding}

theorem of_heap (h : t.heap = s.heap)
    (same : t =
      { s with heap := t.heap, identities := t.identities, loops := t.loops, stats := t.stats }) :
    s.Alike t :=
  ⟨by rw [h]; exact .refl _, same⟩

theorem refl (s : Session) : s.Alike s := ⟨.refl _, rfl⟩

theorem trans (hst : s.Alike t) (htu : t.Alike u) : s.Alike u := by
  refine ⟨hst.heap.trans htu.heap, ?_⟩
  rw [htu.same, hst.same]

theorem counting (h : s.Alike t) (identities : Nat) : (s.counting identities).Alike t :=
  ⟨h.heap, h.same⟩

theorem bound (h : s.Alike t) (hb : b.Alike c) (env : EnvId) (name : Symbol) :
    (s.bound env name b).Alike (t.bound env name c) := by
  refine ⟨h.heap.updateSlot (fun hframe => hframe.bind hb name) env.index, ?_⟩
  rw [h.same]
  rfl

theorem bound_bound_self (s : Session) (env : EnvId) (name : Symbol) (b c : Binding) :
    ((s.bound env name b).bound env name c).Alike (s.bound env name c) := by
  refine ⟨?_, rfl⟩
  change ((s.heap.updateSlot _ _).updateSlot _ _).Alike _
  rw [Heap.updateSlot_updateSlot]
  exact (Heap.Alike.refl _).updateSlot (fun hframe => hframe.bind_bind_self name b c) _

theorem bound_comm (hne : name ≠ other) (s : Session) (env : EnvId) (b c : Binding) :
    ((s.bound env name b).bound env other c).Alike ((s.bound env other c).bound env name b) := by
  refine ⟨?_, rfl⟩
  change ((s.heap.updateSlot _ _).updateSlot _ _).Alike ((s.heap.updateSlot _ _).updateSlot _ _)
  rw [Heap.updateSlot_updateSlot, Heap.updateSlot_updateSlot]
  exact (Heap.Alike.refl _).updateSlot (fun hframe => hframe.bind_comm hne b c) _

end Alike

end Session

end CallByNeed
