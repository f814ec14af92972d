import CallByNeed.Proofs.Heap.Assignment

/-!
# Scopes are finite

Slots are used again, so the index of a frame says nothing about its age, and a
reference to a parent that was freed may name the slot in which the child lies.
What does tell the age is the order in which references were handed out: a frame is
made inside one whose reference is there already (`History.Nested`), and nothing
but its making gives a frame its parent (`Operation.perform_origin`).  So the parent
of a frame stands further back in the account of the history (`Nested.descends`),
and since no reference is handed out twice, parents never lead back to a frame.

The ways outward from an environment are `Heap.Path`, which does not mention the
number of slots that bounds the look-ups; `Heap.Searches` says what one that looks
for a name comes to.
-/

namespace CallByNeed.Heap

variable {h h' : Heap} {id env : EnvId} {f : Frame} {name : Symbol}

/-! ## Ways outward -/

/-- From `start` outward the frames `ids` are passed through, one after the other, and `stop` comes
    after them. -/
inductive Path (h : Heap) (through : Frame → Prop) :
    (start : Option EnvId) → (ids : List EnvId) → (stop : Option EnvId) → Prop where
  | here (start : Option EnvId) : Path h through start [] start
  | outward {id : EnvId} {f : Frame} {ids : List EnvId} {stop : Option EnvId}
      (hf : h.frame? id = some f) (hthrough : through f)
      (hrest : Path h through f.parent ids stop) : Path h through (some id) (id :: ids) stop

namespace Path

variable {through : Frame → Prop} {start stop : Option EnvId} {ids : List EnvId}

theorem contains (hpath : h.Path through start ids stop) : ∀ id ∈ ids, h.contains id = true := by
  induction hpath with
  | here => simp
  | outward hf _ _ ih =>
    intro id hid
    obtain rfl | hid := List.mem_cons.1 hid
    · exact contains_of_frame? hf
    · exact ih id hid

/-- Everything on the way lies around the beginning. -/
theorem atOrAround (hpath : h.Path through start ids stop) :
    ∀ outer ∈ ids ++ stop.toList, ∃ id, start = some id ∧ h.AtOrAround outer id := by
  induction hpath with
  | here start =>
    intro outer houter
    exact ⟨outer, by simpa using houter, .refl⟩
  | outward hf _ _ ih =>
    intro outer houter
    obtain rfl | houter := List.mem_cons.1 houter
    · exact ⟨outer, rfl, .refl⟩
    · obtain ⟨parent, hparent, haround⟩ := ih outer houter
      exact ⟨_, rfl, haround.tail ⟨_, hf, hparent⟩⟩

/-- Where parents do not lead back, no frame is met twice. -/
theorem nodup (hwf : WellFounded h.Encloses) (hpath : h.Path through start ids stop) :
    (ids ++ stop.toList).Nodup := by
  induction hpath with
  | here start => cases start <;> simp
  | outward hf _ hrest ih =>
    refine List.nodup_cons.2 ⟨fun hmem => ?_, ih⟩
    obtain ⟨parent, hparent, haround⟩ := hrest.atOrAround _ hmem
    exact not_around_self hwf _ (.tail' haround ⟨_, hf, hparent⟩)

theorem length_le (hwf : WellFounded h.Encloses) (hpath : h.Path through start ids stop) :
    ids.length ≤ h.slots.size := by
  classical
  have hnodup : ids.Nodup := (hpath.nodup hwf).of_append_left
  rw [← List.toFinset_card_of_nodup hnodup]
  exact card_le_size fun id hid => hpath.contains id (List.mem_toFinset.1 hid)

/-- Where a way outward ends, it leads on to a freed reference or to a frame that is not passed
    through, or to the end. -/
theorem exists_stop {n : Nat} (hends : h.EndsWithin n start) (through : Frame → Prop) :
    ∃ ids stop, h.Path through start ids stop ∧
      ∀ id ∈ stop, ∀ f, h.frame? id = some f → ¬ through f := by
  induction n generalizing start with
  | zero =>
    cases start with
    | none => exact ⟨[], none, .here _, nofun⟩
    | some id => exact hends.elim
  | succ n ih =>
    cases start with
    | none => exact ⟨[], none, .here _, nofun⟩
    | some id =>
      -- either the way goes on through this frame, or it stops here
      by_cases hon : ∃ f, h.frame? id = some f ∧ through f
      · obtain ⟨f, hf, hthrough⟩ := hon
        obtain ⟨ids, stop, hpath, hstop⟩ := ih (hends f hf)
        exact ⟨id :: ids, stop, .outward hf hthrough hpath, hstop⟩
      · refine ⟨[], some id, .here _, fun other hother f hf hthrough => ?_⟩
        cases hother
        exact hon ⟨f, hf, hthrough⟩

theorem forget (hpath : h.Path through start ids stop) :
    h.Path (fun _ => True) start ids stop := by
  induction hpath with
  | here start => exact .here start
  | outward hf _ _ ih => exact .outward hf trivial ih

theorem passesOver (hpath : h.Path (·.get? name = none) start ids stop) :
    h.PassesOver name start stop := by
  induction hpath with
  | here start => exact .here start
  | outward hf hfree _ ih => exact .outward hf hfree ih

/-- A way through all frames is the scope. -/
theorem scopeWithin_eq {n : Nat} (hpath : h.Path (fun _ => True) start ids stop)
    (hstop : ∀ id ∈ stop, h.contains id = false) (hends : h.EndsWithin n start) :
    (h.scopeWithin n start).frames.map Prod.fst = ids ∧
      (h.scopeWithin n start).dangling = stop := by
  induction hpath generalizing n with
  | here start =>
    cases start with
    | none => cases n <;> exact ⟨rfl, rfl⟩
    | some id =>
      have hnone : h.frame? id = none := by simpa [Heap.contains] using hstop id rfl
      cases n with
      | zero => exact hends.elim
      | succ n => simp only [scopeWithin, hnone, List.map_nil, true_and]
  | outward hf _ _ ih =>
    cases n with
    | zero => exact hends.elim
    | succ n =>
      obtain ⟨hids, hdangling⟩ := ih hstop (hends _ hf)
      simp only [scopeWithin, hf, List.map_cons, hids, hdangling, and_self]

end Path

/-- What a look-up from `start` outward comes to, and the frames that it reads: the first frame that
    binds the name, or nothing, or the first reference that was freed. -/
inductive Searches (h : Heap) (name : Symbol) (start : Option EnvId) :
    (seen : List EnvId) → Except EvalError (Option (EnvId × Binding)) → Prop where
  | found {ids : List EnvId} {id : EnvId} {b : Binding}
      (hpath : h.Path (·.get? name = none) start ids (some id))
      (hb : h.binding? id name = some b) : Searches h name start (ids ++ [id]) (.ok (some (id, b)))
  | nowhere {ids : List EnvId} (hpath : h.Path (·.get? name = none) start ids none) :
      Searches h name start ids (.ok none)
  | stale {ids : List EnvId} {id : EnvId}
      (hpath : h.Path (·.get? name = none) start ids (some id)) (hstale : h.contains id = false) :
      Searches h name start ids (.error (.staleEnvironment id))

/-- The frames that a look-up reads lie on one way outward. -/
theorem Searches.path {start : Option EnvId} {seen : List EnvId}
    {outcome : Except EvalError (Option (EnvId × Binding))}
    (hsearches : h.Searches name start seen outcome) :
    ∃ ids stop, h.Path (fun _ => True) start ids stop ∧ seen.Sublist (ids ++ stop.toList) := by
  cases hsearches with
  | found hpath => exact ⟨_, _, hpath.forget, .refl _⟩
  | nowhere hpath => exact ⟨_, _, hpath.forget, List.sublist_append_left ..⟩
  | stale hpath => exact ⟨_, _, hpath.forget, List.sublist_append_left ..⟩

/-- What `find` makes of the owner of a name. -/
def ownValue (owner : Option (EnvId × Binding)) : Option (EnvId × Value) :=
  owner.map fun (id, binding) => (id, binding.value)

/-- What `lookup` makes of the owner of a name. -/
def valueOf (name : Symbol) : Option (EnvId × Binding) → Except EvalError Value
  | some (_, binding) => .ok binding.value
  | none => .error (.unboundSymbol name)

/-- What a non-local assignment does when the frames around the environment have been searched. -/
def assignTo (name : Symbol) (value : Value) (global : EnvId) :
    Except EvalError (Option (EnvId × Binding)) → HeapM EnvId
  | .error e => throw e
  | .ok owner => do
    let target := (owner.map Prod.fst).getD global
    HeapM.bind target name value
    return target

theorem find_eq (h : Heap) (env : EnvId) (name : Symbol) :
    h.find env name = ((h.scope env).owner? name).map ownValue := by
  unfold find
  rcases (h.scope env).owner? name with e | owner <;> rfl

theorem lookup_eq (h : Heap) (env : EnvId) (name : Symbol) :
    h.lookup env name = ((h.scope env).owner? name).bind (valueOf name) := by
  unfold lookup find
  rcases (h.scope env).owner? name with e | _ | owner <;> rfl

/-- The environment that is assigned from is read first. -/
theorem assignNonLocal_eq (hf : h.frame? env = some f) (name : Symbol) (value : Value)
    (global : EnvId) :
    HeapM.assignNonLocal env name value global h =
      assignTo name value global ((h.scopeFrom f.parent).owner? name) h := by
  have htarget := nonLocalTarget_of_frame? hf name global
  rw [assignNonLocal_run, htarget]
  rcases (h.scopeFrom f.parent).owner? name with e | owner
  · rfl
  · change _ = StateT.bind (HeapM.modifyFrame _ (·.set name value)) (ExceptT.bindCont _) h
    simp only [Except.map, StateT.bind, SessionM.modifyFrame_run]
    split <;> rfl

section Finite

variable (hwf : WellFounded h.Encloses)
include hwf

theorem Searches.nodup {start : Option EnvId} {seen : List EnvId}
    {outcome : Except EvalError (Option (EnvId × Binding))}
    (hsearches : h.Searches name start seen outcome) : seen.Nodup := by
  obtain ⟨ids, stop, hpath, hseen⟩ := hsearches.path
  exact hseen.nodup (hpath.nodup hwf)

/-- A look-up in the parent of a frame does not come back to the frame. -/
theorem Searches.nodup_cons {seen : List EnvId}
    {outcome : Except EvalError (Option (EnvId × Binding))} (hf : h.frame? env = some f)
    (hsearches : h.Searches name f.parent seen outcome) : (env :: seen).Nodup := by
  obtain ⟨ids, stop, hpath, hseen⟩ := hsearches.path
  exact (hseen.cons_cons env).nodup ((Path.outward hf trivial hpath).nodup hwf)

/-- A look-up ends, and its outcome is what `owner?` answers. -/
theorem exists_searches (name : Symbol) (start : Option EnvId) :
    ∃ seen outcome, h.Searches name start seen outcome ∧
      (h.scopeFrom start).owner? name = outcome := by
  have hends := endsWithin_of_wellFounded hwf start
  -- the way outward through frames without the name stops where the look-up does
  obtain ⟨ids, stop, hpath, hstop⟩ := Path.exists_stop hends (·.get? name = none)
  cases stop with
  | none => exact ⟨ids, _, .nowhere hpath, owner?_of_all_passed hpath.passesOver hends⟩
  | some id =>
    cases hf : h.frame? id with
    | none =>
      have hstale := frame?_eq_none_iff.1 hf
      exact ⟨ids, _, .stale hpath hstale, owner?_of_stale hpath.passesOver hends hstale⟩
    | some f =>
      obtain ⟨b, hb⟩ := Option.ne_none_iff_exists'.1 (hstop id rfl f hf)
      have hb : h.binding? id name = some b := by rw [binding?_of_frame? hf, hb]
      exact ⟨ids ++ [id], _, .found hpath hb, owner?_of_binding? hpath.passesOver hends hb⟩

/-- The chain of an environment is the way outward through all frames. -/
theorem exists_chain (env : EnvId) :
    ∃ ids stop, h.Path (fun _ => True) (some env) ids stop ∧
      (∀ id ∈ stop, h.contains id = false) ∧
      h.chain env = match stop with
        | some id => .error (.staleEnvironment id)
        | none => .ok ids := by
  have hends := endsWithin_of_wellFounded hwf (some env)
  obtain ⟨ids, stop, hpath, hstop⟩ := Path.exists_stop hends fun _ => True
  have hstale : ∀ id ∈ stop, h.contains id = false := by
    intro id hid
    cases hf : h.frame? id with
    | none => exact frame?_eq_none_iff.1 hf
    | some f => exact absurd trivial (hstop id hid f hf)
  refine ⟨ids, stop, hpath, hstale, ?_⟩
  obtain ⟨hids, hdangling⟩ := hpath.scopeWithin_eq hstale hends
  cases stop <;> simp only [chain, scope, scopeFrom, hdangling, hids]

end Finite

/-! ## Where frames come from -/

/-- The environment in which an operation makes a frame. -/
def Operation.parent? : Operation → Option EnvId
  | allocate parent => parent
  | insert f => f.parent
  | _ => none

theorem parent_updateSlot (change : Frame → Frame) (hid : h.contains id = true)
    (hchange : ∀ f, (change f).parent = f.parent) {other : EnvId}
    (hf : (h.updateSlot id.index change).frame? other = some f) :
    ∃ g, h.frame? other = some g ∧ g.parent = f.parent := by
  by_cases hsame : other = id
  · subst hsame
    obtain ⟨g, hg⟩ := Option.isSome_iff_exists.1 hid
    cases (frame?_updateSlot_self change hg).symm.trans hf
    exact ⟨g, hg, (hchange g).symm⟩
  · exact ⟨f, by rwa [frame?_updateSlot_of_ne change hid hsame] at hf, rfl⟩

theorem parent_modifyFrame (change : Frame → Frame) (hchange : ∀ f, (change f).parent = f.parent)
    (hf : (HeapM.modifyFrame env change h).2.frame? id = some f) :
    ∃ g, h.frame? id = some g ∧ g.parent = f.parent := by
  rw [SessionM.modifyFrame_run] at hf
  split at hf
  · rename_i henv
    exact parent_updateSlot change henv hchange hf
  · exact ⟨f, hf, rfl⟩

theorem parent_assignNonLocal {value : Value} {global : EnvId}
    (hf : (HeapM.assignNonLocal env name value global h).2.frame? id = some f) :
    ∃ g, h.frame? id = some g ∧ g.parent = f.parent := by
  rw [assignNonLocal_run] at hf
  split at hf
  · exact ⟨f, hf, rfl⟩
  · split at hf
    · rename_i htarget
      exact parent_updateSlot (·.set name value) htarget (fun _ => rfl) hf
    · exact ⟨f, hf, rfl⟩

theorem WellFormed.parent_insert (hwf : h.WellFormed) {made : Frame}
    (hf : (h.insert made).2.frame? id = some f) :
    some (h.insert made).1 = some id ∧ f.parent = made.parent ∨
      ∃ g, h.frame? id = some g ∧ g.parent = f.parent := by
  rw [hwf.frame?_insert] at hf
  split at hf
  · rename_i hid
    cases hf
    exact .inl ⟨congrArg some hid.symm, rfl⟩
  · exact .inr ⟨f, hf, rfl⟩

/-- A frame that is there after an operation was made by it, or was there before and had the same
    parent. -/
theorem Operation.perform_origin {op : Operation} {handed : Option EnvId} (hwf : h.WellFormed)
    (hperform : op.perform h = some (handed, h')) (hf : h'.frame? id = some f) :
    handed = some id ∧ f.parent = op.parent? ∨
      ∃ g, h.frame? id = some g ∧ g.parent = f.parent := by
  cases op with
  | allocate parent =>
    cases hperform
    exact hwf.parent_insert hf
  | insert made =>
    cases hperform
    exact hwf.parent_insert hf
  | bind env name value =>
    cases hperform
    exact .inr (parent_modifyFrame (·.set name value) (fun _ => rfl) hf)
  | bindDefault env name value =>
    cases hperform
    exact .inr (parent_modifyFrame (·.bind name ⟨value, true⟩) (fun _ => rfl) hf)
  | assignNonLocal env name value global =>
    cases hperform
    exact .inr (parent_assignNonLocal hf)
  | collect store roots values =>
    obtain ⟨⟨count, swept⟩, hcollect, hperform⟩ := Option.bind_eq_some_iff.1 hperform
    cases hperform
    exact .inr ⟨f, ((hwf.frame?_collect hcollect).1 hf).1, rfl⟩

namespace History

variable {s t : History} {op : Operation} {ops : List Operation}

/-- A run of operations that make frames only inside ones whose references were handed out before,
    whether these are there still or not. -/
inductive Nested : History → Prop where
  | start : Nested start
  | step {s : History} {handed : Option EnvId} {heap : Heap} (hs : Nested s) (op : Operation)
      (hparent : ∀ id ∈ op.parent?, id ∈ s.issued)
      (hperform : op.perform s.heap = some (handed, heap)) : Nested (s.record handed heap)

theorem Nested.sound (hs : s.Nested) : s.Sound := by
  induction hs with
  | start => exact sound_start
  | step _ _ _ hperform ih => exact ih.record (ih.wellFormed.performed hperform)

theorem Nested.nodup (hs : s.Nested) (hbound : ∀ i, s.freed i < 2 ^ 32) : s.issued.Nodup := by
  induction hs with
  | start => exact List.nodup_nil
  | step hs _ _ hperform ih =>
    have hbefore (i : Nat) := Nat.lt_of_le_of_lt (freed_le_record _ _ _ i) (hbound i)
    exact hs.sound.nodup_record (hs.sound.wellFormed.performed hperform) (ih hbefore) hbound

/-- The reference to the parent of a frame was handed out before that to the frame itself, so it
    stands after it in the account. -/
def Descends (s : History) : Prop :=
  ∀ (id : EnvId) (f : Frame) (parent : EnvId), s.heap.frame? id = some f →
    f.parent = some parent → List.Sublist [id, parent] s.issued

theorem Nested.descends (hs : s.Nested) : s.Descends := by
  induction hs with
  | start =>
    intro id f parent hf
    simp [History.start, Heap.empty, frame?] at hf
  | step hs op hparents hperform ih =>
    intro id f parent hf hparent
    obtain ⟨rfl, hmade⟩ | ⟨g, hg, hsame⟩ := op.perform_origin hs.sound.wellFormed hperform hf
    · -- the new reference goes in front of all those handed out before
      exact (List.singleton_sublist.2 (hparents parent (hmade.symm.trans hparent))).cons_cons id
    · exact (ih id g parent hg (hsame.trans hparent)).trans (List.sublist_append_right ..)

theorem idxOf_lt_of_sublist {α : Type} [BEq α] [LawfulBEq α] {a b : α} {l : List α}
    (hnodup : l.Nodup) (hsub : List.Sublist [a, b] l) : l.idxOf a < l.idxOf b := by
  induction l with
  | nil => cases hsub
  | cons c rest ih =>
    obtain ⟨hfirst, hrest⟩ := List.nodup_cons.1 hnodup
    cases hsub with
    | cons _ hsub =>
      have hne {d : α} (hd : d ∈ [a, b]) : c ≠ d := fun he => hfirst (he ▸ hsub.subset hd)
      rw [List.idxOf_cons_ne _ (hne (by simp)), List.idxOf_cons_ne _ (hne (by simp))]
      exact Nat.succ_lt_succ (ih hrest hsub)
    | cons_cons _ hsub =>
      have hne : a ≠ b := fun he => hfirst (he ▸ hsub.subset List.mem_cons_self)
      rw [List.idxOf_cons_self, List.idxOf_cons_ne _ hne]
      exact Nat.succ_pos _

/-- The later a reference was handed out, the higher its frame lies. -/
theorem Descends.layered (hdescends : s.Descends) (hnodup : s.issued.Nodup) : s.heap.Layered := by
  refine ⟨fun id => s.issued.length - s.issued.idxOf id, fun {id f parent} hf hparent => ?_⟩
  have hsub := hdescends id f parent hf hparent
  have hlater := idxOf_lt_of_sublist hnodup hsub
  have hparent := List.idxOf_lt_length_of_mem (hsub.subset (by simp : parent ∈ [id, parent]))
  change s.issued.length - s.issued.idxOf parent < s.issued.length - s.issued.idxOf id
  omega

theorem Nested.wellFounded (hs : s.Nested) (hbound : ∀ i, s.freed i < 2 ^ 32) :
    WellFounded s.heap.Encloses :=
  layered_iff_wellFounded.1 (hs.descends.layered (hs.nodup hbound))

/-! ## Going on -/

/-- A history goes on to this heap, and no slot is freed so often that its generation begins
    anew. -/
def Continues (s : History) (heap : Heap) : Prop :=
  ∃ ops t, s.run? ops = some t ∧ t.heap = heap ∧ ∀ i, t.freed i < 2 ^ 32

/-- A frame that is there later, under a reference that was handed out before, was there before and
    had the same parent. -/
theorem Sound.frame?_of_run (hs : s.Sound) (hnodup : s.issued.Nodup) (hrun : s.run? ops = some t)
    (hbound : ∀ i, t.freed i < 2 ^ 32) (hid : id ∈ s.issued) (hf : t.heap.frame? id = some f) :
    ∃ g, s.heap.frame? id = some g ∧ g.parent = f.parent := by
  induction ops generalizing s with
  | nil =>
    cases hrun
    exact ⟨f, hf, rfl⟩
  | cons op rest ih =>
    obtain ⟨handed, heap, hperform, hrun⟩ := run?_cons hrun
    have hperformed := hs.wellFormed.performed hperform
    have hmid (i : Nat) : (s.record handed heap).freed i < 2 ^ 32 :=
      Nat.lt_of_le_of_lt (freed_le_run hrun i) (hbound i)
    have hnodup' := hs.nodup_record hperformed hnodup hmid
    obtain ⟨g, hg, hsame⟩ :=
      ih (hs.record hperformed) hnodup' hrun (List.mem_append_right _ hid)
    obtain ⟨rfl, -⟩ | ⟨g', hg', hsame'⟩ := op.perform_origin hs.wellFormed hperform hg
    · -- the reference would have been handed out twice
      exact absurd hid (List.nodup_cons.1 hnodup').1
    · exact ⟨g', hg', hsame'.trans hsame⟩

end History

end CallByNeed.Heap
