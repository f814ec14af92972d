import CallByNeed.Proofs.Contract.Loops
import CallByNeed.Proofs.Heap.Ancestry
import CallByNeed.Proofs.Methods.Search

/-!
# Every way outward ends

A look-up in the heap alone reads one heap.  Looking for a function is different:
promises are forced on the way, which may run the program, so every frame is read in
the heap as it is by then.  All that a program does to the heap is a run of the
operations in `Heap.Operation` (`Contract.develops`), and a frame that is there later
under an old reference was there before, inside the same parent.  So the frames that
such a walk passes through are a way outward in the heap that it began with
(`Evaluator.Passes.path`), whatever was allocated or freed meanwhile.
-/

namespace CallByNeed

/-! ## What evaluation does to the heap -/

/-- The second heap comes about from the first one by a run of operations. -/
def Heap.Develops : Heap → Heap → Prop :=
  Relation.ReflTransGen fun h h' => ∃ op handed, Operation.perform op h = some (handed, h')

theorem Heap.Develops.single {h h' : Heap} (op : Heap.Operation)
    (hperform : (op.perform h).map Prod.snd = some h') : h.Develops h' := by
  obtain ⟨⟨handed, heap⟩, hdone, hheap⟩ := Option.map_eq_some_iff.1 hperform
  exact Relation.ReflTransGen.single ⟨op, handed, by rw [hdone, ← hheap]⟩

/-- Such a run continues every history that has come to the first heap. -/
theorem Heap.Develops.exists_run {h h' : Heap} (hdevelops : h.Develops h') {s : Heap.History}
    (hs : s.heap = h) : ∃ ops t, s.run? ops = some t ∧ t.heap = h' := by
  induction hdevelops using Relation.ReflTransGen.head_induction_on generalizing s with
  | refl => exact ⟨[], s, rfl, hs⟩
  | @head h mid hstep _ ih =>
    obtain ⟨op, handed, hperform⟩ := hstep
    subst hs
    obtain ⟨ops, t, hrun, ht⟩ := ih (rfl : (s.record handed mid).heap = mid)
    refine ⟨op :: ops, t, ?_, ht⟩
    rw [Heap.History.run?, Heap.History.step?, hperform]
    exact hrun

theorem Session.Move.develops {s t : Session} (hmove : s.Move t) : s.heap.Develops t.heap := by
  cases hmove with
  | write name binding live =>
    rename_i env
    obtain ⟨value, defaultArg⟩ := binding
    have hwritten : (HeapM.modifyFrame env (·.bind name ⟨value, defaultArg⟩) s.heap).2 =
        (s.bound env name ⟨value, defaultArg⟩).heap := by
      rw [SessionM.modifyFrame_run, if_pos live]
      rfl
    cases defaultArg with
    | false => exact .single (.bind env name value) (congrArg some hwritten)
    | true => exact .single (.bindDefault env name value) (congrArg some hwritten)
  | allocate parent => exact .single (.allocate parent) rfl
  | load name =>
    unfold Namespaces.load
    cases s.namespaces.get? name with
    | some ns => exact .refl
    | none => exact .single (.allocate (some s.namespaces.baseEnv)) rfl
  | collect held hcollect =>
    refine .single (.collect s.promises s.rootEnvs (held ++ s.rootValues)) ?_
    rw [Heap.Operation.perform, hcollect]
    rfl
  | _ => exact .refl

/-- All that evaluation does to the heap are operations on it. -/
def Contract.develops : Contract where
  inv _ := True
  rel s t := s.heap.Develops t.heap
  raises _ _ := True
  lenient := False
  refl _ := .refl
  trans := .trans
  inv_of_rel _ _ := trivial
  raises_of_rel _ _ _ := trivial
  move _ hmove := hmove.develops
  raises_failure _ _ := trivial
  raises_overflow _ _ := trivial
  raises_exhausted _ := trivial
  raises_returning _ _ _ := trivial
  inv_mark _ _ := trivial
  unmark _ _ hrel := hrel
  keep _ _ _ _ hrel := hrel
  raises_unmark _ _ _ := trivial
  inv_enter _ _ _ _ _ := trivial
  leave _ _ _ hrel := hrel
  raises_leave _ _ _ _ _ := trivial

theorem Contract.develops_loopBlind : develops.LoopBlind := fun _ _ _ _ => .refl

namespace Evaluator

variable {ev : Evaluator} {name : Symbol} {id env : EnvId} {ids : List EnvId}
  {start next : Option EnvId} {s t u : Session}

theorem force_develops (fuel : Nat) (value : Value) (s : Session) :
    s.heap.Develops ((evaluator fuel).force value s).2.heap :=
  (Contract.agree_force (Contract.develops_loopBlind.closed.agree_evaluator fuel) value s
    trivial).rel

theorem Looks.develops {fuel : Nat} {outcome : Except Interrupt (Option Value)}
    (h : (evaluator fuel).Looks name id s outcome t) : s.heap.Develops t.heap := by
  have hforced {value : Value} {forced : Except Interrupt Value}
      (hforce : (evaluator fuel).force value s = (forced, t)) : s.heap.Develops t.heap := by
    have hdevelops := force_develops fuel value s
    rwa [hforce] at hdevelops
  cases h with
  | stale => exact .refl
  | unbound => exact .refl
  | function _ _ hforce => exact hforced hforce
  | other _ _ hforce => exact hforced hforce
  | fails _ _ hforce => exact hforced hforce

/-- Frames that are passed over in a search leave a heap that operations have come to. -/
theorem Passes.develops {fuel : Nat} (h : (evaluator fuel).Passes name start s ids next t) :
    s.heap.Develops t.heap := by
  induction h with
  | here => exact .refl
  | outward _ hlook _ ih => exact hlook.develops.trans ih

/-- Where no frame binds the name, nothing is forced on the way. -/
theorem Passes.eq_of_unbound (hfree : ∀ id f, s.heap.frame? id = some f → f.get? name = none)
    (h : ev.Passes name start s ids next t) : t = s := by
  induction h with
  | here => rfl
  | outward hframe hlook _ ih =>
    have hnone := hfree _ _ hframe
    cases hlook with
    | unbound => exact ih hfree
    | other hframe' hget =>
      cases hframe.symm.trans hframe'
      cases hnone.symm.trans hget

/-! ## The frames that a search reads -/

open Heap (History)

variable {a : History}

theorem Passes.path_of_issued (ha : a.Nested) (hbound : ∀ i, a.freed i < 2 ^ 32)
    (hcontinues : ∀ ids next t, ev.Passes name start s ids next t → a.Continues t.heap)
    (hstart : ∀ id ∈ start, id ∈ a.issued) (h : ev.Passes name start s ids next t) :
    a.heap.Path (fun _ => True) start ids next := by
  have hnodup := ha.nodup hbound
  induction h with
  | here => exact .here _
  | @outward id f _ _ s _ _ hframe hlook _ ih =>
    -- the frame was there under this reference when the walk began, with the parent it has now
    obtain ⟨ops, b, hrun, hheap, hfreed⟩ := hcontinues _ _ _ .here
    obtain ⟨g, hg, hsame⟩ := ha.sound.frame?_of_run hnodup hrun hfreed (hstart id rfl)
      (hheap ▸ hframe)
    refine .outward hg trivial (hsame ▸ ih (fun ids next t hpasses => ?_) fun parent hparent => ?_)
    · exact hcontinues _ _ _ (.outward hframe hlook hpasses)
    · exact (ha.descends id g parent hg (hsame.trans hparent)).subset (by simp)

/-- The frames that a search passes over are a way outward in the heap that it began with. -/
theorem Passes.path (ha : a.Nested) (hbound : ∀ i, a.freed i < 2 ^ 32) (hheap : s.heap = a.heap)
    (hcontinues : ∀ ids next t, ev.Passes name (some env) s ids next t → a.Continues t.heap)
    (h : ev.Passes name (some env) s ids next t) :
    a.heap.Path (fun _ => True) (some env) ids next := by
  cases hlive : a.heap.contains env with
  | true =>
    refine h.path_of_issued ha hbound hcontinues fun id hid => ?_
    cases hid
    exact ha.sound.contained env hlive
  | false =>
    -- the environment itself was freed, so that is where the walk ends
    cases h with
    | here => exact .here _
    | outward hframe =>
      rw [hheap] at hframe
      cases hlive.symm.trans (Heap.contains_of_frame? hframe)

/-- A search for a function has passed over `ids`, and ends beyond a frame without parent or with the
    look at the next frame: a function, a freed reference or a promise that cannot be forced. -/
inductive EndsAfter (ev : Evaluator) (name : Symbol) (env : EnvId) (s : Session)
    (ids : List EnvId) : Except Interrupt (Option Value) → Session → Prop where
  | outside {t : Session} (hpasses : ev.Passes name (some env) s ids none t) :
      EndsAfter ev name env s ids (.ok none) t
  | decided {id : EnvId} {outcome : Except Interrupt (Option Value)} {t u : Session}
      (hpasses : ev.Passes name (some env) s ids (some id) t)
      (hlook : ev.Looks name id t outcome u) (hdecided : outcome ≠ .ok none) :
      EndsAfter ev name env s ids outcome u

/-- A search whose frames are a way outward in a heap without endless ways comes to an end. -/
theorem exists_endsAfter (hwf : WellFounded s.heap.Encloses)
    (hpath : ∀ ids next t, ev.Passes name (some env) s ids next t →
      s.heap.Path (fun _ => True) (some env) ids next) :
    ∃ ids, ev.EndsAfter name env s ids (ev.function? env name s).1 (ev.function? env name s).2 := by
  rcases hrun : ev.function? env name s with ⟨outcome, u⟩
  cases function?_run_iff_sees.1 hrun with
  | nearest hpasses _ hlook => exact ⟨_, .decided hpasses hlook nofun⟩
  | nothing hpasses _ => exact ⟨_, .outside hpasses⟩
  | fails hpasses _ hlook => exact ⟨_, .decided hpasses hlook nofun⟩
  | beyond hpasses hlimit =>
    have hlength := (hpath _ _ _ hpasses).length_le hwf
    omega

end Evaluator

namespace Heap.History

/-- In a heap that comes about by operations which make frames only inside ones whose references
    were handed out before, and which free no slot 2 ^ 32 times, no frame is an ancestor of itself,
    and no way outward meets a frame twice.  So looking a name up, listing a chain and assigning
    further out read each frame once at most, and they end at a frame without parent, at one that
    binds the name, or with an error at the first reference that was freed.  Looking for a function
    does so too, whatever the promises that are forced on the way do to the heap: if that frees no
    slot so often either, the frames that are read are a way outward in the heap from the beginning.
    What an evaluator does to the heap always continues the history. -/
theorem Nested.scopes_end {s : History} (hs : s.Nested) (hbound : ∀ i, s.freed i < 2 ^ 32) :
    (∀ id, ¬ s.heap.Around id id) ∧
    (∀ through start ids stop, s.heap.Path through start ids stop →
      (ids ++ stop.toList).Nodup ∧ ids.length ≤ s.heap.slots.size) ∧
    (∀ env name, ∃ seen outcome, s.heap.Searches name (some env) seen outcome ∧ seen.Nodup ∧
      s.heap.find env name = outcome.map ownValue ∧
      s.heap.lookup env name = outcome.bind (valueOf name)) ∧
    (∀ env, ∃ ids stop, s.heap.Path (fun _ => True) (some env) ids stop ∧
      (∀ id ∈ stop, s.heap.contains id = false) ∧
      s.heap.chain env = match stop with
        | some id => .error (.staleEnvironment id)
        | none => .ok ids) ∧
    (∀ env name value global,
      (s.heap.contains env = false →
        HeapM.assignNonLocal env name value global s.heap =
          (.error (.staleEnvironment env), s.heap)) ∧
      ∀ f, s.heap.frame? env = some f →
        ∃ seen outcome, s.heap.Searches name f.parent seen outcome ∧ (env :: seen).Nodup ∧
          HeapM.assignNonLocal env name value global s.heap =
            assignTo name value global outcome s.heap) ∧
    (∀ (ev : Evaluator) (name : Symbol) (env : EnvId) (u : Session), u.heap = s.heap →
      (∀ ids next t, ev.Passes name (some env) u ids next t → s.Continues t.heap) →
      (∀ ids next t, ev.Passes name (some env) u ids next t →
        s.heap.Path (fun _ => True) (some env) ids next) ∧
      ∃ ids, ev.EndsAfter name env u ids (ev.function? env name u).1 (ev.function? env name u).2) ∧
    (∀ (fuel : Nat) (name : Symbol) (env : EnvId) (u : Session), u.heap = s.heap →
      ∀ ids next t, (evaluator fuel).Passes name (some env) u ids next t →
        ∃ ops a, s.run? ops = some a ∧ a.heap = t.heap) := by
  have hwf := hs.wellFounded hbound
  refine ⟨not_around_self hwf, fun through start ids stop hpath =>
    ⟨hpath.nodup hwf, hpath.length_le hwf⟩, fun env name => ?_, exists_chain hwf,
    fun env name value global => ⟨fun hstale => (lost_of_stale hstale).assignNonLocal _ _ _,
      fun f hf => ?_⟩, fun ev name env u hheap hcontinues => ?_,
    fun fuel name env u hheap ids next t hpasses =>
      hpasses.develops.exists_run hheap.symm⟩
  · obtain ⟨seen, outcome, hsearches, howner⟩ := exists_searches hwf name (some env)
    refine ⟨seen, outcome, hsearches, hsearches.nodup hwf, ?_, ?_⟩
    · rw [find_eq, scope, howner]
    · rw [lookup_eq, scope, howner]
  · obtain ⟨seen, outcome, hsearches, howner⟩ := exists_searches hwf name f.parent
    exact ⟨seen, outcome, hsearches, hsearches.nodup_cons hwf hf,
      by rw [assignNonLocal_eq hf, howner]⟩
  · have hpath (ids : List EnvId) (next : Option EnvId) (t : Session)
        (hpasses : ev.Passes name (some env) u ids next t) :=
      hpasses.path hs hbound hheap hcontinues
    exact ⟨hpath, Evaluator.exists_endsAfter (hheap ▸ hwf) (hheap ▸ hpath)⟩

/-- A frame is made inside one that was freed, and lies in the slot where that one lay; another one
    is made inside it.  From there the ways outward end at the freed reference. -/
theorem Nested.scopes_end_reused :
    ∃ s : History, s.Nested ∧ (∀ i, s.freed i < 2 ^ 32) ∧
      s.issued = [⟨2, 0⟩, ⟨1, 1⟩, ⟨1, 0⟩, ⟨0, 0⟩] ∧
      s.heap.parent ⟨2, 0⟩ = .ok (some ⟨1, 1⟩) ∧ s.heap.parent ⟨1, 1⟩ = .ok (some ⟨1, 0⟩) ∧
      ¬ s.heap.Around ⟨1, 1⟩ ⟨1, 1⟩ ∧
      s.heap.chain ⟨2, 0⟩ = .error (.staleEnvironment ⟨1, 0⟩) ∧ s.heap.chain ⟨0, 0⟩ = .ok [⟨0, 0⟩] ∧
      ∀ (ev : Evaluator) (name : Symbol),
        let u := { Session.initial {} .empty with heap := s.heap }
        ∃ ids, ev.EndsAfter name ⟨2, 0⟩ u ids (ev.function? ⟨2, 0⟩ name u).1
          (ev.function? ⟨2, 0⟩ name u).2 := by
  let ops : List Operation := [.allocate none, .allocate (some ⟨0, 0⟩), .collect .empty [⟨0, 0⟩] [],
    .allocate (some ⟨1, 0⟩), .allocate (some ⟨1, 1⟩)]
  obtain ⟨s, hnested, hrun, hissued, hinner, houter, hchain, hroot, hunbound⟩ : ∃ s : History,
      s.Nested ∧ History.start.run? ops = some s ∧
      s.issued = [⟨2, 0⟩, ⟨1, 1⟩, ⟨1, 0⟩, ⟨0, 0⟩] ∧
      s.heap.parent ⟨2, 0⟩ = .ok (some ⟨1, 1⟩) ∧ s.heap.parent ⟨1, 1⟩ = .ok (some ⟨1, 0⟩) ∧
      s.heap.chain ⟨2, 0⟩ = .error (.staleEnvironment ⟨1, 0⟩) ∧ s.heap.chain ⟨0, 0⟩ = .ok [⟨0, 0⟩] ∧
      s.heap.slots.all (fun slot => slot.frame.all fun f => f.bindings.isEmpty) = true := by
    have hfirst := Nested.start.step (.allocate none) (by decide) rfl
    have hsecond := hfirst.step (.allocate (some ⟨0, 0⟩)) (by decide +kernel) rfl
    have hfreed := hsecond.step (.collect .empty [⟨0, 0⟩] []) (by decide +kernel) rfl
    have hreused := hfreed.step (.allocate (some ⟨1, 0⟩)) (by decide +kernel) rfl
    have hlast := hreused.step (.allocate (some ⟨1, 1⟩)) (by decide +kernel) rfl
    exact ⟨_, hlast, rfl, by decide +kernel, by decide +kernel, by decide +kernel,
      by decide +kernel, by decide +kernel, by decide +kernel⟩
  have hbound (i : Nat) : s.freed i < 2 ^ 32 := by
    have hfreed : s.freed i ≤ 0 + ops.length := run_freed_le hrun i
    simp only [ops, List.length_cons, List.length_nil] at hfreed
    omega
  obtain ⟨haround, -, -, -, -, hends, -⟩ := hnested.scopes_end hbound
  refine ⟨s, hnested, hbound, hissued, hinner, houter, haround _, hchain, hroot, fun ev name => ?_⟩
  refine (hends ev name ⟨2, 0⟩ _ rfl fun ids next t hpasses => ⟨[], s, rfl, ?_, hbound⟩).2
  rw [hpasses.eq_of_unbound fun id f hf => ?_]
  obtain ⟨slot, hslot, -, hframe⟩ := frame?_eq_some_iff.1 hf
  have hempty := Array.all_eq_true'.1 hunbound slot (Array.mem_of_getElem? hslot)
  rw [hframe, Option.all_some, List.isEmpty_iff] at hempty
  rw [Frame.get?, hempty, List.lookup_nil]

end Heap.History

end CallByNeed
