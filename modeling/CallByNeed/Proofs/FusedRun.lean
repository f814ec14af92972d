import CallByNeed.Proofs.Bindings
import CallByNeed.Proofs.Lowering

/-!
# What a fused run does

A fused run looks up the names of its guard and reads its variables before it
writes anything.  If the names can be looked up quietly, it gives up and leaves
the session as it was, or it has computed everything (`Accumulation.Computes`)
and makes two bindings (`fusedRun_run`).
-/

namespace CallByNeed

/-! ## Reading variables -/

namespace Session

/-- The numbers that a variable stands for as seen from `env`, if it is known and has no explicit
    class. -/
def numbers? (s : Session) (env : EnvId) (name : Symbol) : Option DoubleVector :=
  (s.valueOf? env name).bind Value.unclassedDoubles?

/-- The variable is no promise whose value is still to be computed. -/
def IsForced (s : Session) (env : EnvId) (name : Symbol) : Prop :=
  ∀ owner id, s.heap.find env name = .ok (some (owner, .promise id)) →
    s.promises.isWaiting id = false

end Session

theorem Heap.find_of_lookup {h : Heap} {env : EnvId} {name : Symbol} {value : Value}
    (hlookup : h.lookup env name = .ok value) :
    ∃ owner, h.find env name = .ok (some (owner, value)) := by
  unfold lookup at hlookup
  rcases hfind : h.find env name with e | _ | ⟨owner, value'⟩ <;> rw [hfind] at hlookup
  · cases hlookup
  · cases hlookup
  · cases hlookup
    exact ⟨owner, rfl⟩

namespace Evaluator

variable (ev : Evaluator) {s : Session} {env : EnvId} {name : Symbol}

/-- Reading a variable that needs no evaluation leaves the session as it is. -/
theorem attempt_lookup_run (h : s.IsForced env name) :
    SessionM.attempt (ev.lookup env name) s = (.ok (s.valueOf? env name), s) := by
  rcases hlookup : s.heap.lookup env name with e | value
  · have hask : SessionM.askHeap (fun h => h.lookup env name) s = (.error (.failure e), s) :=
      SessionM.askHeap_run_error hlookup
    have hrun : ev.lookup env name s = (.error (.failure e), s) := SessionM.bind_run_error hask _
    simp only [SessionM.attempt, hrun, Session.valueOf?, hlookup]
  have hask : SessionM.askHeap (fun h => h.lookup env name) s = (.ok value, s) :=
    SessionM.askHeap_run_ok hlookup
  have hrun : ev.lookup env name s = ev.force value s := SessionM.bind_run_ok hask _
  simp only [SessionM.attempt, hrun, Session.valueOf?, hlookup]
  cases hknown : s.known? value with
  | some known => rw [ev.force_run_known hknown]
  | none =>
    rw [ev.force_run_unknown hknown fun id hid => ?_]
    obtain ⟨owner, hfind⟩ := Heap.find_of_lookup hlookup
    exact h owner id (hid ▸ hfind)

end Evaluator

/-! ## Giving up or going on -/

namespace FusedM

variable {α β : Type} {x : FusedM α} {f : α → FusedM β} {s t : Session} {stuck : Prop}
  {p : α → Prop} {q : β → Prop}

theorem bind_run_ok {a : α} (h : x.run s = (.ok (.ok a), t)) : (x >>= f).run s = (f a).run t :=
  SessionM.bind_run_ok h _

theorem bind_run_bailout {b : Bailout} (h : x.run s = (.ok (.error b), t)) :
    (x >>= f).run s = (.ok (.error b), t) :=
  SessionM.bind_run_ok h _

theorem bind_run_error {e : Interrupt} (h : x.run s = (.error e, t)) :
    (x >>= f).run s = (.error e, t) :=
  SessionM.bind_run_error h _

theorem run_lift {act : SessionM α} {a : α} (h : act s = (.ok a, t)) :
    (act : FusedM α).run s = (.ok (.ok a), t) := by
  change (Except.ok <$> act) s = _
  rw [← bind_pure_comp, SessionM.bind_run_ok h]
  rfl

/-- The action gives up and leaves the session as it is, or it comes to a value and a session with
    the property `post`; `stuck` says whether it may run out of fuel instead. -/
def Concludes (s : Session) (stuck : Prop) (x : FusedM α) (post : α → Session → Prop) : Prop :=
  (∃ b, x.run s = (.ok (.error b), s)) ∨ (∃ a t, x.run s = (.ok (.ok a), t) ∧ post a t) ∨
    stuck ∧ x.run s = (.error .exhausted, s)

/-- The action leaves the session as it is, and gives up or has a value with the property `p`. -/
abbrev Settles (s : Session) (stuck : Prop) (x : FusedM α) (p : α → Prop) : Prop :=
  Concludes s stuck x fun a t => t = s ∧ p a

/-- Nothing is left behind where an action settles, so the next one begins in the same session. -/
theorem Concludes.bind {post : β → Session → Prop} (hx : Settles s stuck x p)
    (hf : ∀ a, p a → Concludes s stuck (f a) post) : Concludes s stuck (x >>= f) post := by
  rcases hx with ⟨b, hrun⟩ | ⟨a, t, hrun, rfl, hp⟩ | ⟨hstuck, hrun⟩
  · exact .inl ⟨b, bind_run_bailout hrun⟩
  · unfold Concludes
    rw [bind_run_ok hrun]
    exact hf a hp
  · exact .inr (.inr ⟨hstuck, bind_run_error hrun⟩)

namespace Concludes

theorem of_pure {a : α} (h : p a) : Settles s stuck (pure a) p :=
  .inr (.inl ⟨a, s, rfl, rfl, h⟩)

theorem of_run {act : SessionM α} {a : α} (h : act s = (.ok a, s)) (hp : p a) :
    Settles s stuck (act : FusedM α) p :=
  .inr (.inl ⟨a, s, run_lift h, rfl, hp⟩)

theorem of_exhausted {act : SessionM α} (hstuck : stuck) (h : act s = (.error .exhausted, s)) :
    Settles s stuck (act : FusedM α) p := by
  refine .inr (.inr ⟨hstuck, ?_⟩)
  change (Except.ok <$> act) s = _
  rw [← bind_pure_comp, SessionM.bind_run_error h]

theorem of_bailout {e : Except Bailout α} (h : ∀ a, e = .ok a → p a) :
    Settles s stuck (ofBailout e) p := by
  cases e with
  | error b => exact .inl ⟨b, rfl⟩
  | ok a => exact of_pure (h a rfl)

theorem mono {p' : α → Prop} (hx : Settles s stuck x p) (h : ∀ a, p a → p' a) :
    Settles s stuck x p' :=
  hx.imp_right fun hx => hx.imp_left fun ⟨a, t, hrun, ht, hp⟩ => ⟨a, t, hrun, ht, h a hp⟩

theorem forM {items : List α} {g : α → FusedM PUnit} {p : α → Prop}
    (h : ∀ a ∈ items, Settles s stuck (g a) fun _ => p a) :
    Settles s stuck (items.forM g) fun _ => ∀ a ∈ items, p a := by
  induction items with
  | nil => exact of_pure fun _ ha => nomatch ha
  | cons a rest ih =>
    refine (h a List.mem_cons_self).bind fun _ hp => ?_
    refine (ih fun b hb => h b (List.mem_cons_of_mem _ hb)).mono fun _ hrest => ?_
    exact List.forall_mem_cons.2 ⟨hp, hrest⟩

theorem mapM {items : List α} {g : α → FusedM β} (h : ∀ a ∈ items, Settles s stuck (g a) q) :
    Settles s stuck (items.mapM g) fun found => ∀ b ∈ found, q b := by
  induction items with
  | nil => exact of_pure fun _ hb => nomatch hb
  | cons a rest ih =>
    rw [List.mapM_cons]
    refine (h a List.mem_cons_self).bind fun b hb => ?_
    refine (ih fun c hc => h c (List.mem_cons_of_mem _ hc)).bind fun found hfound => ?_
    exact of_pure (List.forall_mem_cons.2 ⟨hb, hfound⟩)

end Concludes

theorem Concludes.of_throw {b : Bailout} {post : α → Session → Prop} :
    Concludes s stuck (throw b : FusedM α) post :=
  .inl ⟨b, rfl⟩

theorem settles_requireForced (env : EnvId) (name : Symbol) :
    Settles s stuck (requireForced env name) fun _ => s.IsForced env name := by
  refine Concludes.bind (Concludes.of_run (p := (· = s)) rfl rfl) fun t ht => ?_
  subst ht
  split
  · rename_i owner id hfind
    split
    · exact .of_throw
    · rename_i hwaiting
      refine .of_pure fun _ _ hother => ?_
      rw [hfind] at hother
      cases hother
      simpa using hwaiting
  · rename_i hfind
    exact .of_pure fun owner id hother => absurd hother (hfind owner id)

end FusedM

namespace Evaluator

variable {fuel : Nat} {s : Session} {env : EnvId} {names : List Symbol} {stuck : Prop}

theorem settles_checkGuard {g : GuardedName} (hname : g.name ∈ names)
    (h : (evaluator fuel).LooksQuietly env names stuck s) :
    FusedM.Settles s stuck ((evaluator fuel).checkGuard env g) fun _ =>
      s.resolve? env g.name = some (some (.builtin g.identity g.builtin)) := by
  have hlook : FusedM.Settles s stuck
      ((SessionM.attempt ((evaluator fuel).function? env g.name) : SessionM _) : FusedM _)
      fun found => ∀ f, found = some f → s.resolve? env g.name = some f := by
    -- a look-up that was dropped says nothing about what the name stands for
    rcases h g.name hname with ⟨found, hrun⟩ | ⟨hstuck, hrun⟩
    · refine .of_run hrun fun f hf => ?_
      subst hf
      exact function?_run_iff.1 (SessionM.eq_ok_of_attempt hrun)
    · exact .of_exhausted hstuck hrun
  refine hlook.bind fun found hfound => ?_
  split
  · rename_i identity builtin
    split
    · rename_i hsame
      obtain ⟨rfl, rfl⟩ := hsame
      exact .of_pure (hfound _ rfl)
    · exact .of_throw
  · exact .of_throw

theorem settles_readAccumulator (ev : Evaluator) {name : Symbol} (h : s.IsForced env name) :
    FusedM.Settles s stuck (ev.readAccumulator env name) fun found =>
      s.numbers? env name = some ⟨#[found.1], found.2⟩ := by
  refine FusedM.Concludes.bind (.of_run (ev.attempt_lookup_run h) rfl) fun found hfound => ?_
  cases found with
  | none => exact .of_throw
  | some value =>
    dsimp only
    split
    · exact .of_throw
    · rename_i v hv
      obtain ⟨xs, attributes⟩ := v
      split
      · rename_i x hx
        obtain rfl : xs = #[x] := Array.toList_inj.1 hx
        refine .of_pure ?_
        rw [Session.numbers?, hfound, Option.bind_some, hv]
      · exact .of_throw

theorem settles_readInvariant (ev : Evaluator) {name : Symbol} (h : s.IsForced env name) :
    FusedM.Settles s stuck (ev.readInvariant env name) fun entry =>
      s.numbers? env entry.1 = some entry.2 := by
  refine FusedM.Concludes.bind (.of_run (ev.attempt_lookup_run h) rfl) fun found hfound => ?_
  cases found with
  | none => exact .of_throw
  | some value =>
    dsimp only
    split
    · exact .of_throw
    · rename_i v hv
      refine .of_pure ?_
      rw [Session.numbers?, hfound, Option.bind_some, hv]

end Evaluator

/-! ## The whole run -/

/-- The numbers that a fused run computes with: the loop variable, the accumulator before and after,
    and what is added to it. -/
structure FusedValues where
  index : Array Float
  last : Float
  start : Float
  attributes : Attributes
  increments : Array Float
  total : Float

/-- In the session, a fused run of the loop over `sequence` computes these numbers. -/
structure Accumulation.Computes (loop : Accumulation) (s : Session) (env : EnvId)
    (sequence : Value) (v : FusedValues) : Prop where
  fits : s.Fits env loop.guard
  index : sequence.plainDoubles? = some v.index
  last : v.index.back? = some v.last
  start : s.numbers? env loop.accumulator = some ⟨#[v.start], v.attributes⟩
  increments : ∃ given lane,
    (∀ entry ∈ given, s.numbers? env entry.1 = some entry.2) ∧
      loop.increment.evaluate v.index given s.kernels = .ok lane ∧
      lane.increments v.index.size = .ok v.increments
  total : s.kernels.accumulate v.start v.increments = .ok v.total

/-- The session after a fused run: the accumulator and the loop variable are new vectors. -/
def Session.fused (s : Session) (env : EnvId) (accumulator var : Symbol) (v : FusedValues) :
    Session :=
  let total : Value := .vector ⟨⟨s.identities⟩, .double #[v.total], v.attributes⟩
  let last : Value := .vector ⟨⟨s.identities + 1⟩, .double #[v.last], .empty⟩
  { (s.bound env accumulator ⟨total, false⟩).bound env var ⟨last, false⟩ with
    identities := s.identities + 2 }

theorem Session.contains_of_numbers? {s : Session} {env : EnvId} {name : Symbol}
    {v : DoubleVector} (h : s.numbers? env name = some v) : s.heap.contains env = true := by
  cases hframe : s.heap.frame? env with
  | some frame => exact Heap.contains_of_frame? hframe
  | none =>
    have hlookup : s.heap.lookup env name = .error (.staleEnvironment env) := by
      -- the scope of a freed environment breaks off at once
      unfold Heap.lookup Heap.find Heap.scope Heap.scopeFrom Heap.scopeWithin
      rw [hframe]
      rfl
    unfold Session.numbers? Session.valueOf? at h
    rw [hlookup] at h
    cases h

namespace Evaluator

variable {fuel : Nat} {s : Session} {env : EnvId} {var : Symbol} {sequence : Value}
  {loop : Accumulation} {stuck : Prop}

theorem bindResult_run (elements : Elements) (attributes : Attributes) (name : Symbol)
    (h : s.heap.contains env = true) :
    (FusedM.bindResult env name elements attributes).run s =
      (.ok (.ok ()),
        { s.bound env name ⟨.vector ⟨⟨s.identities⟩, elements, attributes⟩, false⟩ with
          identities := s.identities + 1 }) := by
  let value : Value := .vector ⟨⟨s.identities⟩, elements, attributes⟩
  let s' : Session := { s with identities := s.identities + 1 }
  have hbind : SessionM.bindIn env name value s' = (.ok (), s'.bound env name ⟨value, false⟩) := by
    rw [SessionM.bindIn_run, if_pos h]
  have hnew : SessionM.newVector elements attributes s = (.ok value, s') := rfl
  refine (FusedM.bind_run_ok (FusedM.run_lift hnew)).trans ?_
  exact FusedM.bind_run_ok (FusedM.run_lift (SessionM.attempt_run_ok hbind))

variable (var sequence) in
/-- A fused run whose names can be looked up quietly gives up and leaves the session as it was, or
    computes everything and binds two results. -/
theorem fusedRun_run
    (h : (evaluator fuel).LooksQuietly env (loop.guard.map (·.name)) stuck s) :
    FusedM.Concludes s stuck ((evaluator fuel).fusedRun loop env var sequence) fun _ t =>
      ∃ v, loop.Computes s env sequence v ∧ t = s.fused env loop.accumulator var v := by
  -- each step up to the two results settles, so they all see the session `s`
  refine FusedM.Concludes.bind (.forM fun _ _ => FusedM.settles_requireForced env _)
    fun _ hforced => ?_
  refine FusedM.Concludes.bind (.forM fun g hg => settles_checkGuard (List.mem_map_of_mem hg) h)
    fun _ hfits => ?_
  obtain ⟨haccumulator, hinvariants⟩ := List.forall_mem_cons.1 hforced
  split
  · rename_i index hindex
    split
    · rename_i last hlast
      refine (settles_readAccumulator _ haccumulator).bind fun (start, attributes) hstart => ?_
      refine FusedM.Concludes.bind
        (.mapM fun name hname => settles_readInvariant _ (hinvariants name hname))
        fun given hgiven => ?_
      refine FusedM.Concludes.bind (FusedM.Concludes.of_run (p := (· = s)) rfl rfl)
        fun t ht => ?_
      subst ht
      refine FusedM.Concludes.bind (.of_bailout fun _ => id) fun lane hlane => ?_
      refine FusedM.Concludes.bind (.of_bailout fun _ => id) fun increments hincrements => ?_
      refine FusedM.Concludes.bind (.of_bailout fun _ => id) fun total htotal => ?_
      have hlive := Session.contains_of_numbers? hstart
      refine .inr (.inl ⟨(), _, ?_, ⟨index, last, start, attributes, increments, total⟩,
        ⟨hfits, hindex, hlast, hstart, ⟨given, lane, hgiven, hlane, hincrements⟩, htotal⟩, rfl⟩)
      -- the accumulator was read from `env`, so `env` is there and neither binding can fail
      rw [FusedM.bind_run_ok (bindResult_run _ _ _ hlive)]
      refine (bindResult_run _ _ _ ?_).trans rfl
      exact (Session.contains_bound hlive _ _ env).trans hlive
    · exact .of_throw
  · exact .of_throw

variable (var sequence) in
/-- A trial whose names can be looked up quietly changes the record of loops only, or it has
    computed everything from the loop that is recorded. -/
theorem tryFused_run {call : Call}
    (h : ∀ loop, (s.loops.status? call).bind LoopStatus.accumulation? = some loop →
      (evaluator fuel).LooksQuietly env (loop.guard.map (·.name)) stuck s) :
    (∃ loops stats, (evaluator fuel).tryFused call env var sequence s =
      (.ok false, { s with loops, stats })) ∨
    (∃ loop v, (s.loops.status? call).bind LoopStatus.accumulation? = some loop ∧
      loop.Computes s env sequence v ∧ (evaluator fuel).tryFused call env var sequence s =
        (.ok true, (s.fused env loop.accumulator var v).fuseLoop call loop)) ∨
    stuck ∧ (evaluator fuel).tryFused call env var sequence s = (.error .exhausted, s) := by
  cases hloop : (s.loops.status? call).bind LoopStatus.accumulation? with
  | none => exact .inl ⟨_, _, tryFused_run_unfit _ env var sequence hloop⟩
  | some loop =>
    by_cases hlength : sequence.length = 0
    · exact .inl ⟨_, _, tryFused_run_empty _ env var hlength⟩
    rw [tryFused_run_fit _ env var hloop hlength]
    -- the run gives up without a trace, or has bound its results, or a look-up did not come back
    rcases fusedRun_run var sequence (h loop hloop) with
      ⟨b, hrun⟩ | ⟨_, t, hrun, v, hcomputes, rfl⟩ | ⟨hstuck, hrun⟩ <;> rw [hrun]
    · exact .inl ⟨_, _, rfl⟩
    · exact .inr (.inl ⟨loop, v, rfl, hcomputes, rfl⟩)
    · exact .inr (.inr ⟨hstuck, rfl⟩)

end Evaluator

end CallByNeed
