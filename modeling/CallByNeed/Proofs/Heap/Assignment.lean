import CallByNeed.Proofs.Heap.Layers
import CallByNeed.Proofs.Heap.References
import Mathlib.Data.Nat.Find
import Mathlib.Logic.Relation

/-!
# Assignment further out

A non-local assignment passes over the frames around an environment that do not
bind the name (`Heap.PassesOver`), from the parent of the environment outward.  It
writes the first frame that does bind it, or the global one after the last frame,
and it fails at a reference to a frame that has been freed.  Frames have one parent
each, so whatever lies between an environment and a frame around it was passed on
the way from one to the other (`PassesOver.of_between`, `PassesOver.around`).

The main theorem is `Heap.assignNonLocal_writes_one`: one binding is written, and
whoever sees the name from below it sees the new value.
-/

namespace CallByNeed

namespace Heap

variable {h : Heap} {env id inner outer target global : EnvId} {f : Frame} {name : Symbol}

/-! ## Frames around frames -/

/-- The frame `inner` is there, and `outer` is its parent. -/
def Encloses (h : Heap) (outer inner : EnvId) : Prop :=
  ∃ f, h.frame? inner = some f ∧ f.parent = some outer

/-- `outer` is an ancestor of `inner`: its parent, or the parent of an ancestor. -/
def Around (h : Heap) : (outer inner : EnvId) → Prop := Relation.TransGen h.Encloses

/-- `outer` is `inner` itself or an ancestor of it. -/
def AtOrAround (h : Heap) : (outer inner : EnvId) → Prop := Relation.ReflTransGen h.Encloses

/-- What a frame binds a name to. -/
def binding? (h : Heap) (id : EnvId) (name : Symbol) : Option Binding :=
  (h.frame? id).bind (·.get? name)

def Binds (h : Heap) (id : EnvId) (name : Symbol) : Prop := (h.binding? id name).isSome = true

theorem binding?_of_frame? (hf : h.frame? id = some f) : h.binding? id name = f.get? name := by
  rw [binding?, hf, Option.bind_some]

theorem binds_iff_of_frame? (hf : h.frame? id = some f) :
    h.Binds id name ↔ ∃ b, f.get? name = some b := by
  rw [Binds, binding?_of_frame? hf, Option.isSome_iff_exists]

theorem encloses_iff : h.Encloses outer inner ↔ h.parent inner = .ok (some outer) := by
  unfold Encloses parent frame
  cases h.frame? inner with
  | none => simp [bind, Except.bind]
  | some f => simp [bind, Except.bind, pure, Except.pure]

/-- A frame has one parent, so two ways outward begin alike. -/
theorem Around.enclosing (hf : h.frame? inner = some f) (haround : h.Around outer inner) :
    ∃ parent, f.parent = some parent ∧ h.AtOrAround outer parent := by
  obtain ⟨parent, houter, g, hg, hparent⟩ := Relation.TransGen.tail'_iff.1 haround
  cases hf.symm.trans hg
  exact ⟨parent, hparent, houter⟩

theorem exists_endsWithin (hwf : WellFounded h.Encloses) (id : EnvId) :
    ∃ n, h.EndsWithin n (some id) := by
  induction id using hwf.induction with
  | _ id ih =>
    cases hf : h.frame? id with
    | none => exact ⟨1, fun g hg => by cases hf.symm.trans hg⟩
    | some f =>
      cases hparent : f.parent with
      | none =>
        refine ⟨1, fun g hg => ?_⟩
        cases hf.symm.trans hg
        rw [hparent]
        trivial
      | some parent =>
        obtain ⟨n, hn⟩ := ih parent ⟨f, hf, hparent⟩
        refine ⟨n + 1, fun g hg => ?_⟩
        cases hf.symm.trans hg
        rwa [hparent]

/-- The frames lie in layers exactly if there is no endless way outward. -/
theorem layered_iff_wellFounded : h.Layered ↔ WellFounded h.Encloses := by
  constructor
  · intro ⟨layer, hlayer⟩
    have hless : Subrelation h.Encloses (InvImage (· < ·) layer) :=
      fun ⟨_, hf, hparent⟩ => hlayer hf hparent
    exact hless.wf (InvImage.wf layer Nat.lt_wfRel.wf)
  · intro hwf
    -- the layer of a frame is how far it is from there to the end of the way outward
    have hends := exists_endsWithin hwf
    classical
    refine ⟨fun id => Nat.find (hends id), fun {id f parent} hf hparent => ?_⟩
    have hid := Nat.find_spec (hends id)
    change Nat.find (hends parent) < Nat.find (hends id)
    cases hn : Nat.find (hends id) with
    | zero =>
      rw [hn] at hid
      exact hid.elim
    | succ n =>
      rw [hn] at hid
      have hbeyond : h.EndsWithin n (some parent) := hparent ▸ hid f hf
      exact Nat.lt_succ_of_le (Nat.find_min' (hends parent) hbeyond)

theorem not_around_self (hwf : WellFounded h.Encloses) (id : EnvId) : ¬ h.Around id id :=
  fun hself => hwf.transGen.asymmetric id id hself hself

/-! ## Passing over frames -/

/-- On the way outward from `start` to `stop`, all frames are there and none binds the name. -/
inductive PassesOver (h : Heap) (name : Symbol) : (start stop : Option EnvId) → Prop where
  | here (start : Option EnvId) : PassesOver h name start start
  | outward {id : EnvId} {f : Frame} {stop : Option EnvId} (hf : h.frame? id = some f)
      (hfree : f.get? name = none) (hrest : PassesOver h name f.parent stop) :
      PassesOver h name (some id) stop

namespace PassesOver

variable {start stop : Option EnvId}

/-- Where no frame in between binds the name, all of them are passed over. -/
theorem of_between (haround : h.AtOrAround outer id)
    (hfree : ∀ between, h.AtOrAround between id → h.Around outer between →
      ¬ h.Binds between name) : h.PassesOver name (some id) (some outer) := by
  induction haround with
  | refl => exact .here _
  | tail hrest hencloses ih =>
    obtain ⟨f, hf, hparent⟩ := hencloses
    have hunbound := hfree _ .refl (.tail' hrest ⟨f, hf, hparent⟩)
    have hnone : f.get? name = none := by
      simpa [Binds, binding?_of_frame? hf] using hunbound
    refine .outward hf hnone ?_
    rw [hparent]
    exact ih fun between hbetween => hfree between (hbetween.tail ⟨f, hf, hparent⟩)

/-- The way outward leads to ancestors. -/
theorem atOrAround (hpass : h.PassesOver name start (some outer)) :
    ∃ id, start = some id ∧ h.AtOrAround outer id := by
  generalize hstop : some outer = stop at hpass
  induction hpass with
  | here start => exact ⟨outer, hstop.symm, .refl⟩
  | outward hf hfree hrest ih =>
    obtain ⟨parent, hparent, haround⟩ := ih hstop
    exact ⟨_, rfl, haround.tail ⟨_, hf, hparent⟩⟩

/-- Every ancestor was passed over or lies further out than where the way has got to. -/
theorem passed_or_beyond (hpass : h.PassesOver name start stop) (hid : start = some id)
    (haround : h.AtOrAround outer id) :
    (h.contains outer = true ∧ ¬ h.Binds outer name) ∨
      ∃ next, stop = some next ∧ h.AtOrAround outer next := by
  induction hpass generalizing id with
  | here start => exact .inr ⟨id, hid, haround⟩
  | outward hf hfree hrest ih =>
    cases hid
    obtain rfl | ⟨parent, hparent, g, hg, hnext⟩ := Relation.ReflTransGen.cases_tail haround
    · refine .inl ⟨contains_of_frame? hf, ?_⟩
      simp [Binds, binding?_of_frame? hf, hfree]
    · cases hf.symm.trans hg
      exact ih hnext hparent

/-- Where a way outward ends, it passes over frames until it meets one that binds the name, or a
    reference to none, or has met all of them. -/
theorem exists_stop {n : Nat} (hends : h.EndsWithin n start) (name : Symbol) :
    h.PassesOver name start none ∨ ∃ id, h.PassesOver name start (some id) ∧
      (h.contains id = false ∨ h.Binds id name) := by
  induction n generalizing start with
  | zero =>
    cases start with
    | none => exact .inl (.here _)
    | some id => exact hends.elim
  | succ n ih =>
    cases start with
    | none => exact .inl (.here _)
    | some id =>
      cases hf : h.frame? id with
      | none => exact .inr ⟨id, .here _, .inl (frame?_eq_none_iff.1 hf)⟩
      | some f =>
        cases hb : f.get? name with
        | some b => exact .inr ⟨id, .here _, .inr ((binds_iff_of_frame? hf).2 ⟨b, hb⟩)⟩
        | none =>
          obtain hpass | ⟨next, hpass, hnext⟩ := ih (hends f hf)
          · exact .inl (.outward hf hb hpass)
          · exact .inr ⟨next, .outward hf hb hpass, hnext⟩

/-- Frames that are passed over do not matter for who owns the name. -/
theorem owner?_eq {n : Nat} (hpass : h.PassesOver name start stop) (hends : h.EndsWithin n start) :
    ∃ m, h.EndsWithin m stop ∧
      (h.scopeWithin n start).owner? name = (h.scopeWithin m stop).owner? name := by
  induction hpass generalizing n with
  | here start => exact ⟨n, hends, rfl⟩
  | outward hf hfree hrest ih =>
    cases n with
    | zero => exact hends.elim
    | succ n =>
      obtain ⟨m, hm, howner⟩ := ih (hends _ hf)
      refine ⟨m, hm, ?_⟩
      rw [← howner, scopeWithin, hf]
      simp only [Scope.owner?, List.findSome?_cons, hfree, Option.map_none]

end PassesOver

/-! ## Who owns a name -/

section Owner

variable {start : Option EnvId} {n : Nat}

theorem owner?_of_all_passed (hpass : h.PassesOver name start none)
    (hends : h.EndsWithin n start) : (h.scopeWithin n start).owner? name = .ok none := by
  obtain ⟨m, -, howner⟩ := hpass.owner?_eq hends
  rw [howner]
  cases m <;> rfl

theorem owner?_of_stale (hpass : h.PassesOver name start (some id))
    (hends : h.EndsWithin n start) (hstale : h.contains id = false) :
    (h.scopeWithin n start).owner? name = .error (.staleEnvironment id) := by
  obtain ⟨m, hm, howner⟩ := hpass.owner?_eq hends
  have hnone : h.frame? id = none := by simpa [contains] using hstale
  rw [howner]
  cases m with
  | zero => exact hm.elim
  | succ m => simp only [scopeWithin, hnone, Scope.owner?, List.findSome?_nil]

theorem owner?_of_binding? {b : Binding} (hpass : h.PassesOver name start (some id))
    (hends : h.EndsWithin n start) (hb : h.binding? id name = some b) :
    (h.scopeWithin n start).owner? name = .ok (some (id, b)) := by
  obtain ⟨m, hm, howner⟩ := hpass.owner?_eq hends
  obtain ⟨f, hf, hget⟩ := Option.bind_eq_some_iff.1 hb
  rw [howner]
  cases m with
  | zero => exact hm.elim
  | succ m => simp only [scopeWithin, hf, Scope.owner?, List.findSome?_cons, hget, Option.map_some]

end Owner

/-! ## The target of a non-local assignment -/

/-- The target is the nearest ancestor that binds the name. -/
structure Nearest (h : Heap) (env : EnvId) (name : Symbol) (target : EnvId) : Prop where
  around : h.Around target env
  binds : h.Binds target name
  first : ∀ between, h.Around between env → h.Around target between → ¬ h.Binds between name

theorem Nearest.live (hnearest : h.Nearest env name target) : h.contains target = true := by
  obtain ⟨b, hb⟩ := Option.isSome_iff_exists.1 hnearest.binds
  obtain ⟨f, hf, -⟩ := Option.bind_eq_some_iff.1 hb
  exact contains_of_frame? hf

/-- The environment and all its ancestors are there, and no ancestor binds the name. -/
structure UnboundAround (h : Heap) (env : EnvId) (name : Symbol) : Prop where
  live : h.contains env = true
  outer : ∀ outer, h.Around outer env → h.contains outer = true ∧ ¬ h.Binds outer name

/-- The way outward meets a freed reference before a frame that binds the name.  The first frame on
    the way is that of the environment itself, where the name is not looked for. -/
structure BreaksOff (h : Heap) (env : EnvId) (name : Symbol) (id : EnvId) : Prop where
  stale : h.contains id = false
  atOrAround : h.AtOrAround id env
  first : ∀ between, h.Around between env → h.Around id between → ¬ h.Binds between name

theorem nonLocalTarget_of_frame? (hf : h.frame? env = some f) (name : Symbol) (global : EnvId) :
    h.nonLocalTarget env name global =
      ((h.scopeFrom f.parent).owner? name).map fun owner => (owner.map Prod.fst).getD global := by
  have hparent : h.parent env = .ok f.parent := by
    simp only [parent, frame, hf]
    rfl
  unfold nonLocalTarget
  rw [hparent]
  change ((h.scopeFrom f.parent).owner? name >>= _) = _
  rcases (h.scopeFrom f.parent).owner? name with e | _ | owner <;> rfl

section Target

variable (hwf : WellFounded h.Encloses)
include hwf

theorem endsWithin_of_wellFounded (start : Option EnvId) :
    h.EndsWithin (h.slots.size + 1) start :=
  (layered_iff_wellFounded.2 hwf).endsWithin start

theorem Nearest.nonLocalTarget_eq (hnearest : h.Nearest env name target) (global : EnvId) :
    h.nonLocalTarget env name global = .ok target := by
  obtain ⟨parent, houter, f, hf, hparent⟩ := Relation.TransGen.tail'_iff.1 hnearest.around
  have hpass : h.PassesOver name f.parent (some target) := by
    rw [hparent]
    exact .of_between houter fun between hbetween =>
      hnearest.first between (.tail' hbetween ⟨f, hf, hparent⟩)
  obtain ⟨b, hb⟩ := Option.isSome_iff_exists.1 hnearest.binds
  rw [nonLocalTarget_of_frame? hf, scopeFrom,
    owner?_of_binding? hpass (endsWithin_of_wellFounded hwf _) hb]
  rfl

theorem UnboundAround.nonLocalTarget_eq (hunbound : h.UnboundAround env name) (global : EnvId) :
    h.nonLocalTarget env name global = .ok global := by
  have hends := endsWithin_of_wellFounded hwf
  obtain ⟨f, hf⟩ := Option.isSome_iff_exists.1 hunbound.live
  obtain hpass | ⟨id, hpass, hstop⟩ := PassesOver.exists_stop (hends f.parent) name
  · rw [nonLocalTarget_of_frame? hf, scopeFrom, owner?_of_all_passed hpass (hends _)]
    rfl
  · -- the way would stop at an ancestor that is not there, or at one that binds the name
    obtain ⟨parent, hparent, haround⟩ := hpass.atOrAround
    obtain ⟨hlive, hfree⟩ := hunbound.outer id (.tail' haround ⟨f, hf, hparent⟩)
    obtain hstale | hbinds := hstop
    · cases hstale.symm.trans hlive
    · exact absurd hbinds hfree

theorem BreaksOff.nonLocalTarget_eq (hbreaks : h.BreaksOff env name id) (global : EnvId) :
    h.nonLocalTarget env name global = .error (.staleEnvironment id) := by
  obtain rfl | ⟨parent, houter, f, hf, hparent⟩ :=
    Relation.ReflTransGen.cases_tail hbreaks.atOrAround
  · have hnone : h.frame? env = none := by simpa [contains] using hbreaks.stale
    simp only [nonLocalTarget, Heap.parent, frame, hnone]
    rfl
  · have hpass : h.PassesOver name f.parent (some id) := by
      rw [hparent]
      exact .of_between houter fun between hbetween =>
        hbreaks.first between (.tail' hbetween ⟨f, hf, hparent⟩)
    rw [nonLocalTarget_of_frame? hf, scopeFrom,
      owner?_of_stale hpass (endsWithin_of_wellFounded hwf _) hbreaks.stale]
    rfl

/-- One of the three cases is there. -/
theorem target_cases (env : EnvId) (name : Symbol) :
    (∃ target, h.Nearest env name target) ∨ h.UnboundAround env name ∨
      ∃ id, h.BreaksOff env name id := by
  cases hf : h.frame? env with
  | none =>
    refine .inr (.inr ⟨env, frame?_eq_none_iff.1 hf, .refl, fun between hbetween => ?_⟩)
    obtain ⟨parent, -, g, hg, -⟩ := Relation.TransGen.tail'_iff.1 hbetween
    cases hf.symm.trans hg
  | some f =>
    have hlive := contains_of_frame? hf
    -- the ancestors that the way has passed, or those further out than its end
    have hancestors {stop : Option EnvId} (hpass : h.PassesOver name f.parent stop)
        {outer : EnvId} (houter : h.Around outer env) :
        (h.contains outer = true ∧ ¬ h.Binds outer name) ∨
          ∃ next, stop = some next ∧ h.AtOrAround outer next := by
      obtain ⟨parent, hparent, haround⟩ := houter.enclosing hf
      exact hpass.passed_or_beyond hparent haround
    have hfirst {id : EnvId} (hpass : h.PassesOver name f.parent (some id)) (between : EnvId)
        (hbetween : h.Around between env) (hinside : h.Around id between) :
        ¬ h.Binds between name := by
      obtain ⟨-, hfree⟩ | ⟨next, hnext, hbeyond⟩ := hancestors hpass hbetween
      · exact hfree
      · cases hnext
        exact absurd (Relation.TransGen.trans_left hinside hbeyond) (not_around_self hwf _)
    obtain hpass | ⟨id, hpass, hstop⟩ :=
      PassesOver.exists_stop (endsWithin_of_wellFounded hwf f.parent) name
    · refine .inr (.inl ⟨hlive, fun outer houter => ?_⟩)
      obtain hpassed | ⟨next, hnext, -⟩ := hancestors hpass houter
      · exact hpassed
      · cases hnext
    · obtain ⟨parent, hparent, haround⟩ := hpass.atOrAround
      have haround : h.Around id env := .tail' haround ⟨f, hf, hparent⟩
      obtain hstale | hbinds := hstop
      · exact .inr (.inr ⟨id, hstale, haround.to_reflTransGen, hfirst hpass⟩)
      · exact .inl ⟨id, haround, hbinds, hfirst hpass⟩

end Target

/-! ## What an assignment changes -/

/-- One binding is written, and every other binding and every parent is as before. -/
structure Writes (h h' : Heap) (target : EnvId) (name : Symbol) (value : Value) : Prop where
  written : h'.binding? target name = some ⟨value, false⟩
  others : ∀ id other, ¬ (id = target ∧ other = name) →
    h'.binding? id other = h.binding? id other
  parents : ∀ id, h'.parent id = h.parent id

section Written

variable {h' : Heap} {value : Value} {seen : EnvId}

theorem writes_updateSlot (htarget : h.contains target = true) (name : Symbol) (value : Value) :
    h.Writes (h.updateSlot target.index (·.set name value)) target name value := by
  obtain ⟨f, hf⟩ := Option.isSome_iff_exists.1 htarget
  have hself := frame?_updateSlot_self (·.set name value) hf
  have hother {id : EnvId} (hne : id ≠ target) :=
    frame?_updateSlot_of_ne (·.set name value) htarget hne
  constructor
  case written => rw [binding?_of_frame? hself, Frame.set, Frame.get?_bind_self]
  case others =>
    intro id other hne
    by_cases hid : id = target
    · subst hid
      rw [binding?_of_frame? hself, binding?_of_frame? hf, Frame.set,
        Frame.get?_bind_of_ne _ _ fun hname => hne ⟨rfl, hname⟩]
    · rw [binding?, hother hid, binding?]
  case parents =>
    intro id
    by_cases hid : id = target
    · subst hid
      simp only [parent, frame, hself, hf]
      rfl
    · simp only [parent, frame, hother hid]

namespace Writes

theorem encloses_eq (hwrites : h.Writes h' target name value) : h'.Encloses = h.Encloses :=
  funext fun outer => funext fun inner => propext <| by
    rw [encloses_iff, encloses_iff, hwrites.parents]

/-- The new value is seen from every frame below the one that was written, if no frame in between
    binds the name. -/
theorem lookup_eq (hwrites : h.Writes h' target name value) (hwf : WellFounded h.Encloses)
    (haround : h.AtOrAround target seen)
    (hfree : ∀ between, h.AtOrAround between seen → h.Around target between →
      ¬ h.Binds between name) : h'.lookup seen name = .ok value := by
  have hpass : h'.PassesOver name (some seen) (some target) := by
    -- the writing changes no parents, so what lies around what is as before
    refine .of_between (by rwa [AtOrAround, hwrites.encloses_eq]) fun between hbetween hinside => ?_
    rw [AtOrAround, hwrites.encloses_eq] at hbetween
    rw [Around, hwrites.encloses_eq] at hinside
    -- the frame written to is not around itself, so it is none of those in between
    have hne : between ≠ target := by
      rintro rfl
      exact not_around_self hwf _ hinside
    rw [Binds, hwrites.others _ _ fun he => hne he.1]
    exact hfree between hbetween hinside
  have hwf' : WellFounded h'.Encloses := by rwa [hwrites.encloses_eq]
  have howner := owner?_of_binding? hpass (endsWithin_of_wellFounded hwf' _) hwrites.written
  rw [lookup, find, scope, scopeFrom, howner]
  rfl

end Writes

end Written

/-! ## Runs -/

section Runs

variable (value : Value)

theorem assignNonLocal_run_error {e : EvalError}
    (htarget : h.nonLocalTarget env name global = .error e) :
    HeapM.assignNonLocal env name value global h = (.error e, h) := by
  rw [assignNonLocal_run, htarget]

theorem assignNonLocal_run_stale (htarget : h.nonLocalTarget env name global = .ok target)
    (hstale : h.contains target = false) :
    HeapM.assignNonLocal env name value global h = (.error (.staleEnvironment target), h) := by
  rw [assignNonLocal_run, htarget]
  simp only [hstale, Bool.false_eq_true, if_false]

theorem assignNonLocal_run_written (htarget : h.nonLocalTarget env name global = .ok target)
    (hlive : h.contains target = true) :
    (HeapM.assignNonLocal env name value global h).1 = .ok target ∧
      h.Writes (HeapM.assignNonLocal env name value global h).2 target name value := by
  rw [assignNonLocal_run, htarget]
  simpa only [hlive, if_true, true_and] using writes_updateSlot hlive name value

variable {value}

/-- An assignment that succeeds has a target: the nearest ancestor that binds the name, or the
    global frame if none does. -/
theorem target_of_assignNonLocal (hwf : WellFounded h.Encloses)
    (hanswer : (HeapM.assignNonLocal env name value global h).1 = .ok target) :
    (h.Nearest env name target ∨ target = global ∧ h.UnboundAround env name) ∧
      h.Writes (HeapM.assignNonLocal env name value global h).2 target name value := by
  -- the way outward meets the name, or ends without it, or breaks off at a freed reference
  obtain ⟨nearest, hnearest⟩ | hunbound | ⟨id, hbreaks⟩ := target_cases hwf env name
  · obtain ⟨hok, hwrites⟩ := assignNonLocal_run_written value
      (hnearest.nonLocalTarget_eq hwf global) hnearest.live
    cases hok.symm.trans hanswer
    exact ⟨.inl hnearest, hwrites⟩
  · have htarget := hunbound.nonLocalTarget_eq hwf global
    cases hlive : h.contains global with
    | true =>
      obtain ⟨hok, hwrites⟩ := assignNonLocal_run_written value htarget hlive
      cases hok.symm.trans hanswer
      exact ⟨.inr ⟨rfl, hunbound⟩, hwrites⟩
    | false =>
      rw [assignNonLocal_run_stale value htarget hlive] at hanswer
      cases hanswer
  · rw [assignNonLocal_run_error value (hbreaks.nonLocalTarget_eq hwf global)] at hanswer
    cases hanswer

/-- An assignment that fails has written nothing. -/
theorem eq_of_assignNonLocal_error {e : EvalError}
    (hanswer : (HeapM.assignNonLocal env name value global h).1 = .error e) :
    (HeapM.assignNonLocal env name value global h).2 = h := by
  rw [assignNonLocal_run] at hanswer ⊢
  split
  · rfl
  · split
    · rename_i htarget hlive
      simp only [htarget, hlive, if_true, reduceCtorEq] at hanswer
    · rfl

/-- What is seen from below the frame that was written, by an ancestor or by the environment itself
    if it does not bind the name, is the new value. -/
theorem lookup_of_assignNonLocal (hwf : WellFounded h.Encloses) {seen : EnvId}
    (hanswer : (HeapM.assignNonLocal env name value global h).1 = .ok target)
    (hseen : h.Around seen env ∨ seen = env ∧ ¬ h.Binds env name)
    (hbelow : h.AtOrAround target seen) :
    (HeapM.assignNonLocal env name value global h).2.lookup seen name = .ok value := by
  obtain ⟨htarget, hwrites⟩ := target_of_assignNonLocal hwf hanswer
  refine hwrites.lookup_eq hwf hbelow fun between hbetween hinside => ?_
  -- what lies between is an ancestor of `env`, or `env` itself
  have hbetween : h.Around between env ∨ between = env ∧ ¬ h.Binds env name := by
    obtain hseen | ⟨rfl, hfree⟩ := hseen
    · exact .inl (hseen.trans_right hbetween)
    · obtain rfl | haround := Relation.reflTransGen_iff_eq_or_transGen.1 hbetween
      · exact .inr ⟨rfl, hfree⟩
      · exact .inl haround
  obtain hbetween | ⟨rfl, hfree⟩ := hbetween
  · obtain hnearest | ⟨-, hunbound⟩ := htarget
    · exact hnearest.first between hbetween hinside
    · exact (hunbound.outer between hbetween).2
  · exact hfree

/-- An environment keeps its own binding of the name, unless it is the global one and no ancestor
    binds the name. -/
theorem own_of_assignNonLocal (hwf : WellFounded h.Encloses) (env : EnvId) (name : Symbol)
    (value : Value) (global : EnvId) :
    (HeapM.assignNonLocal env name value global h).2.binding? env name = h.binding? env name ∨
      env = global ∧ (HeapM.assignNonLocal env name value global h).1 = .ok global ∧
        h.UnboundAround env name := by
  cases hanswer : (HeapM.assignNonLocal env name value global h).1 with
  | error e => exact .inl (by rw [eq_of_assignNonLocal_error hanswer])
  | ok target =>
    obtain ⟨hnearest | ⟨rfl, hunbound⟩, hwrites⟩ := target_of_assignNonLocal hwf hanswer
    · refine .inl (hwrites.others env name fun henv => ?_)
      exact not_around_self hwf _ (henv.1 ▸ hnearest.around)
    · by_cases henv : env = target
      · exact .inr ⟨henv, rfl, hunbound⟩
      · exact .inl (hwrites.others env name fun he => henv he.1)

end Runs

/-- In a heap without endless ways outward, a non-local assignment writes the name in the nearest
    ancestor that binds it, or in the global frame if no ancestor does, and answers that frame.  It
    changes one binding; what an ancestor at or below the written frame sees under the name is the
    new value, and so does the environment itself if it does not bind the name.  Its own binding
    changes only if it is the global frame that is written for want of another.  If a reference on
    the way has been freed, or the global one where it would be written, it fails and the heap is
    as before. -/
theorem assignNonLocal_writes_one (hwf : WellFounded h.Encloses) (env : EnvId) (name : Symbol)
    (value : Value) (global : EnvId) :
    let run := HeapM.assignNonLocal env name value global h
    (∀ target, h.Nearest env name target →
      run.1 = .ok target ∧ h.Writes run.2 target name value) ∧
    (h.UnboundAround env name → h.contains global = true →
      run.1 = .ok global ∧ h.Writes run.2 global name value) ∧
    (∀ target, run.1 = .ok target → ∀ seen, h.Around seen env ∨ seen = env ∧ ¬ h.Binds env name →
      h.AtOrAround target seen → run.2.lookup seen name = .ok value) ∧
    (run.2.binding? env name = h.binding? env name ∨
      env = global ∧ run.1 = .ok global ∧ h.UnboundAround env name) ∧
    (h.UnboundAround env name → h.contains global = false →
      run = (.error (.staleEnvironment global), h)) ∧
    (∀ id, h.BreaksOff env name id → run = (.error (.staleEnvironment id), h)) ∧
    ((∃ target, h.Nearest env name target) ∨ h.UnboundAround env name ∨
      ∃ id, h.BreaksOff env name id) := by
  intro run
  refine ⟨fun target hnearest => ?_, fun hunbound hlive => ?_,
    fun target hanswer seen hseen hbelow => ?_, ?_, fun hunbound hstale => ?_,
    fun id hbreaks => ?_, target_cases hwf env name⟩
  · exact assignNonLocal_run_written value (hnearest.nonLocalTarget_eq hwf global) hnearest.live
  · exact assignNonLocal_run_written value (hunbound.nonLocalTarget_eq hwf global) hlive
  · exact lookup_of_assignNonLocal hwf hanswer hseen hbelow
  · exact own_of_assignNonLocal hwf env name value global
  · exact assignNonLocal_run_stale value (hunbound.nonLocalTarget_eq hwf global) hstale
  · exact assignNonLocal_run_error value (hbreaks.nonLocalTarget_eq hwf global)

/-- The global frame with a frame inside it, and another one inside that; both bind `x`.  The last
    frame is inside one that has been freed. -/
def nested : Heap :=
  let frames : List Frame :=
    [⟨[], none⟩, ⟨[(⟨"x"⟩, ⟨.null, false⟩)], some ⟨0, 0⟩⟩,
      ⟨[(⟨"x"⟩, ⟨.null, false⟩)], some ⟨1, 0⟩⟩, ⟨[], some ⟨7, 0⟩⟩]
  { Heap.empty with slots := (frames.map fun f => ⟨0, some f, false⟩).toArray, live := 4 }

theorem wellFounded_nested : WellFounded nested.Encloses := by
  refine layered_iff_wellFounded.1 ⟨fun id => if id.index < 4 then id.index + 1 else 0, ?_⟩
  intro id f parent hf hparent
  obtain ⟨slot, hslot, -, hframe⟩ := frame?_eq_some_iff.1 hf
  obtain ⟨index, generation⟩ := id
  obtain _ | _ | _ | _ | index := index <;> cases hslot <;> cases hframe <;> cases hparent <;> simp

theorem around_nested (haround : nested.Around outer ⟨2, 0⟩) :
    outer = ⟨1, 0⟩ ∨ outer = ⟨0, 0⟩ := by
  obtain ⟨parent, hparent, haround⟩ := haround.enclosing rfl
  cases hparent
  obtain rfl | haround := Relation.reflTransGen_iff_eq_or_transGen.1 haround
  · exact .inl rfl
  · obtain ⟨parent, hparent, haround⟩ := Around.enclosing rfl haround
    cases hparent
    obtain rfl | haround := Relation.reflTransGen_iff_eq_or_transGen.1 haround
    · exact .inr rfl
    · obtain ⟨parent, hparent, -⟩ := Around.enclosing rfl haround
      cases hparent

/-- In `nested`, `x` is written in the second frame when the third one assigns it, and `y` in the
    global one; from the fourth frame the assignment fails, and so it does if the global frame has
    been freed. -/
theorem assignNonLocal_writes_one_nested :
    let value : Value := .list []
    let assign (env : EnvId) (name : Symbol) (global : EnvId) :=
      HeapM.assignNonLocal env name value global nested
    WellFounded nested.Encloses ∧
    nested.Nearest ⟨2, 0⟩ ⟨"x"⟩ ⟨1, 0⟩ ∧
    nested.UnboundAround ⟨2, 0⟩ ⟨"y"⟩ ∧
    nested.BreaksOff ⟨3, 0⟩ ⟨"y"⟩ ⟨7, 0⟩ ∧
    (assign ⟨2, 0⟩ ⟨"x"⟩ ⟨0, 0⟩).1 = .ok ⟨1, 0⟩ ∧
    (assign ⟨2, 0⟩ ⟨"x"⟩ ⟨0, 0⟩).2.lookup ⟨1, 0⟩ ⟨"x"⟩ = .ok value ∧
    (assign ⟨2, 0⟩ ⟨"x"⟩ ⟨0, 0⟩).2.binding? ⟨2, 0⟩ ⟨"x"⟩ = some ⟨.null, false⟩ ∧
    (assign ⟨2, 0⟩ ⟨"y"⟩ ⟨0, 0⟩).1 = .ok ⟨0, 0⟩ ∧
    (assign ⟨2, 0⟩ ⟨"y"⟩ ⟨0, 0⟩).2.lookup ⟨2, 0⟩ ⟨"y"⟩ = .ok value ∧
    assign ⟨2, 0⟩ ⟨"y"⟩ ⟨9, 0⟩ = (.error (.staleEnvironment ⟨9, 0⟩), nested) ∧
    assign ⟨3, 0⟩ ⟨"y"⟩ ⟨0, 0⟩ = (.error (.staleEnvironment ⟨7, 0⟩), nested) := by
  intro value assign
  have hwf := wellFounded_nested
  have hinner : nested.Encloses ⟨1, 0⟩ ⟨2, 0⟩ := ⟨_, rfl, rfl⟩
  have houter : nested.Encloses ⟨0, 0⟩ ⟨1, 0⟩ := ⟨_, rfl, rfl⟩
  have hnearest : nested.Nearest ⟨2, 0⟩ ⟨"x"⟩ ⟨1, 0⟩ := by
    refine ⟨.single hinner, rfl, fun between hbetween hinside => ?_⟩
    obtain rfl | rfl := around_nested hbetween
    · exact absurd hinside (not_around_self hwf _)
    · exact absurd (hinside.tail houter) (not_around_self hwf _)
  have hunbound : nested.UnboundAround ⟨2, 0⟩ ⟨"y"⟩ := by
    refine ⟨rfl, fun outer haround => ?_⟩
    obtain rfl | rfl := around_nested haround
    · exact ⟨rfl, Bool.false_ne_true⟩
    · exact ⟨rfl, Bool.false_ne_true⟩
  have hbreaks : nested.BreaksOff ⟨3, 0⟩ ⟨"y"⟩ ⟨7, 0⟩ := by
    refine ⟨rfl, .single ⟨_, rfl, rfl⟩, fun between hbetween hinside => ?_⟩
    obtain ⟨parent, hparent, haround⟩ := hbetween.enclosing rfl
    cases hparent
    exact absurd (hinside.trans_left haround) (not_around_self hwf _)
  obtain ⟨hwrites, -, hlookup, hown, -, -, -⟩ :=
    assignNonLocal_writes_one hwf ⟨2, 0⟩ ⟨"x"⟩ value ⟨0, 0⟩
  obtain ⟨-, hglobal, hlookup', -, -, -, -⟩ :=
    assignNonLocal_writes_one hwf ⟨2, 0⟩ ⟨"y"⟩ value ⟨0, 0⟩
  obtain ⟨-, -, -, -, hstale, -, -⟩ := assignNonLocal_writes_one hwf ⟨2, 0⟩ ⟨"y"⟩ value ⟨9, 0⟩
  obtain ⟨-, -, -, -, -, hbroken, -⟩ := assignNonLocal_writes_one hwf ⟨3, 0⟩ ⟨"y"⟩ value ⟨0, 0⟩
  refine ⟨hwf, hnearest, hunbound, hbreaks, (hwrites _ hnearest).1, ?_, ?_,
    (hglobal hunbound rfl).1, ?_, hstale hunbound rfl, hbroken _ hbreaks⟩
  · exact hlookup _ (hwrites _ hnearest).1 _ (.inl (.single hinner)) .refl
  · obtain hown | ⟨henv, -⟩ := hown
    · exact hown
    · cases henv
  · exact hlookup' _ (hglobal hunbound rfl).1 _ (.inr ⟨rfl, Bool.false_ne_true⟩)
      (.tail (.single houter) hinner)

end Heap

end CallByNeed
