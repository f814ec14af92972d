import CallByNeed.Proofs.Heap.Layers
import CallByNeed.Proofs.Resolution

/-!
# Binding a name

What a session looks like after one name was bound in one environment.  Every
other name stands for what it stood for, and so does the name itself where a
function is looked for, if it is bound to no function before and after.
-/

namespace CallByNeed.Session

variable {s t : Session} {env : EnvId} {name other : Symbol} {binding : Binding}

/-- The frame of the environment has the binding, and every other frame is as before. -/
theorem frame?_bound (hlive : s.heap.contains env = true) (name : Symbol) (binding : Binding)
    (id : EnvId) :
    (s.bound env name binding).heap.frame? id =
      if id = env then (s.heap.frame? env).map (·.bind name binding) else s.heap.frame? id := by
  obtain ⟨frame, hframe⟩ := Option.isSome_iff_exists.1 hlive
  split
  · rename_i hid
    subst hid
    rw [hframe]
    exact Heap.frame?_updateSlot_self _ hframe
  · rename_i hid
    exact Heap.frame?_updateSlot_of_ne _ hlive hid

theorem contains_bound (hlive : s.heap.contains env = true) (name : Symbol) (binding : Binding)
    (id : EnvId) : (s.bound env name binding).heap.contains id = s.heap.contains id := by
  unfold Heap.contains
  rw [frame?_bound hlive]
  split
  · rename_i hid
    subst hid
    simp
  · rfl

/-- A frame that is there after a binding was there before, with the same parent and, but for the
    binding, the same entries. -/
theorem frame_of_bound (hlive : s.heap.contains env = true) {id : EnvId} {f : Frame}
    (hf : (s.bound env name binding).heap.frame? id = some f) :
    ∃ g, s.heap.frame? id = some g ∧ g.parent = f.parent ∧
      ∀ entry ∈ f.bindings, entry = (name, binding) ∨ entry ∈ g.bindings := by
  rw [frame?_bound hlive] at hf
  split at hf
  · rename_i hid
    obtain ⟨g, hg, rfl⟩ := Option.map_eq_some_iff.1 hf
    exact ⟨g, hid ▸ hg, rfl, fun _ => Assoc.mem_put⟩
  · exact ⟨f, hf, rfl, fun _ => .inr⟩

theorem deepens_bound (hlive : s.heap.contains env = true) (name : Symbol) (binding : Binding) :
    s.heap.Deepens (s.bound env name binding).heap := by
  refine .of_parents fun id => ?_
  rw [frame?_bound hlive]
  split
  · rename_i hid
    rw [hid, Option.map_map]
    rfl
  · rfl

theorem size_bound (s : Session) (env : EnvId) (name : Symbol) (binding : Binding) :
    (s.bound env name binding).heap.slots.size = s.heap.slots.size :=
  Array.size_modify

/-! ## Looking a function up -/

/-- What is bound under a name in the frame of the environment is known, and is no function. -/
def BindsNoFunction (s : Session) (env : EnvId) (name : Symbol) : Prop :=
  ∀ frame binding, s.heap.frame? env = some frame → frame.get? name = some binding →
    ∃ value, s.known? binding.value = some value ∧ value.isFunction = false

theorem resolveWithin_bound (hlive : s.heap.contains env = true)
    (hname : other = name → s.BindsNoFunction env name ∧
      ∃ value, s.known? binding.value = some value ∧ value.isFunction = false)
    (fuel : Nat) (start : Option EnvId) :
    (s.bound env name binding).resolveWithin other fuel start =
      s.resolveWithin other fuel start := by
  induction fuel generalizing start with
  | zero => cases start <;> rfl
  | succ fuel ih =>
    cases start with
    | none => rfl
    | some id =>
      unfold resolveWithin
      rw [frame?_bound hlive]
      by_cases hid : id = env
      · subst hid
        rw [if_pos rfl]
        cases hframe : s.heap.frame? id with
        | none => rfl
        | some frame =>
          simp only [Option.map_some, Option.bind_eq_bind, Option.bind_some, Frame.parent_bind, ih]
          -- the frame is passed over before and after, unless it is another name that is looked for
          by_cases hother : other = name
          · subst hother
            obtain ⟨hbefore, value, hvalue, hnofunction⟩ := hname rfl
            have hknown : (s.bound id other binding).known? binding.value = some value := hvalue
            rw [Frame.get?_bind_self]
            simp only [hknown, Option.bind_some, hnofunction, Bool.false_eq_true, if_false]
            cases hbinding : frame.get? other with
            | none => rfl
            | some old =>
              obtain ⟨value', hvalue', hnofunction'⟩ := hbefore frame old hframe hbinding
              simp only [hvalue', Option.bind_some, hnofunction', Bool.false_eq_true, if_false]
          · rw [Frame.get?_bind_of_ne _ _ hother]
            rfl
      · rw [if_neg hid]
        simp only [ih]
        rfl

/-- A new binding does not change which functions are found, unless it hides one or is one. -/
theorem resolve?_bound (hlive : s.heap.contains env = true)
    (hname : other = name → s.BindsNoFunction env name ∧
      ∃ value, s.known? binding.value = some value ∧ value.isFunction = false) (start : EnvId) :
    (s.bound env name binding).resolve? start other = s.resolve? start other := by
  unfold resolve?
  rw [size_bound, resolveWithin_bound hlive hname]

theorem resolve?_congr (hheap : t.heap = s.heap) (hpromises : t.promises = s.promises)
    (start : EnvId) : t.resolve? start name = s.resolve? start name := by
  have hknown : t.known? = s.known? := by
    funext value
    unfold known?
    rw [hpromises]
  have hwithin (fuel : Nat) (start : Option EnvId) :
      t.resolveWithin name fuel start = s.resolveWithin name fuel start := by
    induction fuel generalizing start with
    | zero => cases start <;> rfl
    | succ fuel ih =>
      cases start with
      | none => rfl
      | some id =>
        unfold resolveWithin
        rw [hheap, hknown]
        simp only [ih]
  unfold resolve?
  rw [hheap, hwithin]

/-! ## Looking a variable up -/

theorem scopeWithin_bound (hlive : s.heap.contains env = true) (fuel : Nat)
    (start : Option EnvId) :
    (s.bound env name binding).heap.scopeWithin fuel start =
      ⟨(s.heap.scopeWithin fuel start).frames.map fun (id, frame) =>
          (id, if id = env then frame.bind name binding else frame),
        (s.heap.scopeWithin fuel start).dangling⟩ := by
  induction fuel generalizing start with
  | zero => cases start <;> rfl
  | succ fuel ih =>
    cases start with
    | none => rfl
    | some id =>
      unfold Heap.scopeWithin
      rw [frame?_bound hlive]
      by_cases hid : id = env
      · subst hid
        cases hframe : s.heap.frame? id with
        | none => simp
        | some frame => simp [ih]
      · rw [if_neg hid]
        cases hframe : s.heap.frame? id with
        | none => simp
        | some frame => simp [ih, hid]

/-- A new binding does not change what another variable stands for. -/
theorem valueOf?_bound_of_ne (hlive : s.heap.contains env = true) (hne : other ≠ name)
    (start : EnvId) :
    (s.bound env name binding).valueOf? start other = s.valueOf? start other := by
  have howner : ((s.bound env name binding).heap.scope start).owner? other =
      (s.heap.scope start).owner? other := by
    unfold Heap.scope Heap.scopeFrom
    rw [size_bound, scopeWithin_bound hlive]
    unfold Scope.owner?
    rw [List.findSome?_map]
    -- the frame that was changed answers for another name as it did
    have hsame : ((fun (id, f) => (f.get? other).map (id, ·)) ∘ fun ((id, frame) : EnvId × Frame) =>
        (id, if id = env then frame.bind name binding else frame)) =
        fun (id, f) => (f.get? other).map (id, ·) := by
      funext (id, frame)
      simp only [Function.comp_apply]
      split
      · rw [Frame.get?_bind_of_ne _ _ hne]
      · rfl
    rw [hsame]
  unfold valueOf? Heap.lookup Heap.find
  rw [howner]
  rfl

theorem valueOf?_of_frame? {frame : Frame} (hframe : s.heap.frame? env = some frame)
    (hbinding : frame.get? name = some binding) :
    s.valueOf? env name = s.known? binding.value := by
  have howner : (s.heap.scope env).owner? name = .ok (some (env, binding)) := by
    unfold Heap.scope Heap.scopeFrom Heap.scopeWithin
    rw [hframe]
    simp [Scope.owner?, hbinding]
  unfold valueOf? Heap.lookup Heap.find
  rw [howner]
  rfl

theorem valueOf?_bound_self (hlive : s.heap.contains env = true) :
    (s.bound env name binding).valueOf? env name = s.known? binding.value := by
  obtain ⟨frame, hframe⟩ := Option.isSome_iff_exists.1 hlive
  have hbound : (s.bound env name binding).heap.frame? env = some (frame.bind name binding) := by
    rw [frame?_bound hlive, if_pos rfl, hframe]
    rfl
  exact valueOf?_of_frame? hbound (Frame.get?_bind_self ..)

end CallByNeed.Session
