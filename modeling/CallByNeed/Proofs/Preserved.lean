import CallByNeed.Proofs.Contract.Loops
import CallByNeed.Proofs.Heap.Collection

/-!
# Preserving and releasing

What a host preserves is a list of values, and a release takes back the latest one
that is identical to its value (`releaseFrom_eq_some`).  Being identical is an
equivalence on all values but argument lists, and an argument list is identical to
nothing, not even to itself (`Value.identical_iff_same`, `Value.Same.refl_iff`).  So
for the other values the calls are balanced, whatever happens in between: the list
holds a value as often as it was preserved and not released (`Session.Logged.count`).
An argument list is never released.
-/

namespace CallByNeed

/-! ## Being identical -/

namespace Value

/-- Whether a value is an argument list, which is not shared as a whole. -/
def isArgList : Value → Bool
  | list _ => true
  | dots _ => true
  | _ => false

/-- The same shared value, or the same immediate. -/
inductive Same : Value → Value → Prop where
  | null : Same .null .null
  | symbol (name : Symbol) : Same (.symbol name) (.symbol name)
  | environment (id : EnvId) : Same (.environment id) (.environment id)
  | promise (id : PromiseId) : Same (.promise id) (.promise id)
  | vector {v w : Vec} (h : v.identity = w.identity) : Same (.vector v) (.vector w)
  | call {c d : Call} (h : c.identity = d.identity) : Same (.call c) (.call d)
  | closure {c d : Closure} (h : c.identity = d.identity) : Same (.closure c) (.closure d)
  | builtin {i j : Identity} (b c : Builtin) (h : i = j) : Same (.builtin i b) (.builtin j c)

variable {u v w : Value}

theorem identical_iff_same : v.identical w = true ↔ v.Same w := by
  constructor
  · intro h
    cases v <;> cases w <;> simp only [identical, beq_iff_eq, Bool.false_eq_true] at h
    -- of values of two kinds the function says no, so the diagonal is left
    case null.null => exact .null
    case symbol.symbol => exact h ▸ .symbol _
    case vector.vector => exact .vector h
    case call.call => exact .call h
    case closure.closure => exact .closure h
    case builtin.builtin => exact .builtin _ _ h
    case promise.promise => exact h ▸ .promise _
    case environment.environment => exact h ▸ .environment _
  · intro h
    cases h with
    | null => rfl
    | symbol | environment | promise => exact beq_self_eq_true _
    | vector h | call h | closure h | builtin _ _ h => exact beq_iff_eq.2 h

namespace Same

/-- Only an argument list is not the same as itself. -/
theorem refl_iff : v.Same v ↔ v.isArgList = false := by
  constructor
  · intro h
    cases h <;> rfl
  · intro h
    cases v with
    | null => exact .null
    | symbol => exact .symbol _
    | vector => exact .vector rfl
    | call => exact .call rfl
    | list => cases h
    | dots => cases h
    | closure => exact .closure rfl
    | builtin => exact .builtin _ _ rfl
    | promise => exact .promise _
    | environment => exact .environment _

theorem symm (h : v.Same w) : w.Same v := by
  cases h with
  | null => exact .null
  | symbol => exact .symbol _
  | environment => exact .environment _
  | promise => exact .promise _
  | vector h => exact .vector h.symm
  | call h => exact .call h.symm
  | closure h => exact .closure h.symm
  | builtin _ _ h => exact .builtin _ _ h.symm

theorem trans (huv : u.Same v) (hvw : v.Same w) : u.Same w := by
  cases huv with
  | null | symbol | environment | promise => exact hvw
  | vector h => cases hvw with | vector h' => exact .vector (h.trans h')
  | call h => cases hvw with | call h' => exact .call (h.trans h')
  | closure h => cases hvw with | closure h' => exact .closure (h.trans h')
  | builtin _ _ h => cases hvw with | builtin _ _ h' => exact .builtin _ _ (h.trans h')

end Same

theorem identical_of_isArgList (h : w.isArgList = true) (v : Value) : v.identical w = false := by
  refine Bool.eq_false_iff.2 fun hsame => ?_
  have hsame := identical_iff_same.1 hsame
  cases h.symm.trans (Same.refl_iff.1 (hsame.symm.trans hsame))

/-- Identical values are identical to the same values. -/
theorem identical_congr (h : u.identical v = true) (w : Value) :
    w.identical u = w.identical v := by
  have h := identical_iff_same.1 h
  refine Bool.eq_iff_iff.2 ?_
  rw [identical_iff_same, identical_iff_same]
  exact ⟨fun hu => hu.trans h, fun hv => hv.trans h.symm⟩

theorem identical_comm (v w : Value) : v.identical w = w.identical v := by
  refine Bool.eq_iff_iff.2 ?_
  rw [identical_iff_same, identical_iff_same]
  exact ⟨Same.symm, Same.symm⟩

end Value

/-! ## Releasing one hold -/

namespace Session

variable {v w : Value} {held rest : List Value}

/-- A release takes one value out, the first one that is identical to its own. -/
theorem releaseFrom_eq_some (h : releaseFrom v held = some rest) :
    ∃ newer value older, held = newer ++ value :: older ∧ value.identical v = true ∧
      (∀ other ∈ newer, other.identical v = false) ∧ rest = newer ++ older := by
  induction held generalizing rest with
  | nil => cases h
  | cons value older ih =>
    unfold releaseFrom at h
    split at h
    · rename_i hsame
      cases h
      exact ⟨[], value, older, rfl, hsame, nofun, rfl⟩
    · rename_i hother
      obtain ⟨rest, hrest, rfl⟩ := Option.map_eq_some_iff.1 h
      obtain ⟨newer, found, older, rfl, hsame, hnewer, rfl⟩ := ih hrest
      refine ⟨value :: newer, found, older, rfl, hsame, fun other hmem => ?_, rfl⟩
      obtain rfl | hmem := List.mem_cons.1 hmem
      · exact Bool.eq_false_iff.2 hother
      · exact hnewer other hmem

theorem releaseFrom_eq_none_iff : releaseFrom v held = none ↔
    held.countP (·.identical v) = 0 := by
  induction held with
  | nil => simp [releaseFrom]
  | cons value older ih =>
    unfold releaseFrom
    cases hsame : value.identical v with
    | true => simp [hsame]
    | false => simpa [hsame] using ih

/-- What a release takes out counts for the values that are identical to its own. -/
theorem countP_releaseFrom (h : releaseFrom v held = some rest) (w : Value) :
    rest.countP (·.identical w) + (if v.identical w then 1 else 0) =
      held.countP (·.identical w) := by
  obtain ⟨newer, value, older, rfl, hsame, -, rfl⟩ := releaseFrom_eq_some h
  have hvalue : v.identical w = value.identical w := by
    rw [v.identical_comm, value.identical_comm, Value.identical_congr hsame]
  simp only [List.countP_append, List.countP_cons, hvalue]
  omega

theorem countP_isArgList_releaseFrom (h : releaseFrom v held = some rest) :
    rest.countP Value.isArgList = held.countP Value.isArgList := by
  obtain ⟨newer, value, older, rfl, hsame, -, rfl⟩ := releaseFrom_eq_some h
  have hsame := Value.identical_iff_same.1 hsame
  have hvalue : value.isArgList = false := Value.Same.refl_iff.1 (hsame.trans hsame.symm)
  simp [List.countP_append, hvalue]

/-- Without the values identical to `v`, releasing one of those changes nothing. -/
theorem filter_releaseFrom (h : releaseFrom v held = some rest) (hvw : v.identical w = true) :
    rest.filter (!·.identical w) = held.filter (!·.identical w) := by
  obtain ⟨newer, value, older, rfl, hsame, -, rfl⟩ := releaseFrom_eq_some h
  have hvalue : value.identical w = true := (Value.identical_congr hvw value).symm.trans hsame
  simp [List.filter_append, hvalue]

/-- Releasing another value may be done before or after taking out those identical to `w`. -/
theorem releaseFrom_filter (hvw : v.identical w = false) (held : List Value) :
    releaseFrom v (held.filter (!·.identical w)) =
      (releaseFrom v held).map (List.filter (!·.identical w)) := by
  induction held with
  | nil => rfl
  | cons value older ih =>
    cases hw : value.identical w with
    | true =>
      -- one identical to `w` is not what the release looks for, as that is not identical to `w`
      have hv : value.identical v = false := by
        rw [value.identical_comm, Value.identical_congr hw]
        exact hvw
      simp [releaseFrom, hw, hv, ih, Option.map_map, Function.comp_def]
    | false =>
      cases hv : value.identical v with
      | true => simp [releaseFrom, hw, hv]
      | false =>
        simp [releaseFrom, hw, hv, ih, Option.map_map, Function.comp_def]

/-! ## The log of a host -/

/-- A call of a host, and whether a release has taken something back. -/
inductive HoldEvent where
  | preserve (value : Value)
  | release (value : Value) (taken : Bool)

namespace HoldEvent

/-- Whether the call preserves a value that is identical to this one. -/
@[simp]
def preserves (v : Value) : HoldEvent → Bool
  | preserve w => w.identical v
  | release _ _ => false

/-- Whether the call takes a value back that is identical to this one. -/
@[simp]
def releases (v : Value) : HoldEvent → Bool
  | preserve _ => false
  | release w taken => taken && w.identical v

/-- Whether the call is about a value that is identical to this one. -/
def concerns (v : Value) : HoldEvent → Bool
  | preserve w => w.identical v
  | release w _ => w.identical v

/-- Whether the call preserves an argument list. -/
@[simp]
def preservesArgList : HoldEvent → Bool
  | preserve w => w.isArgList
  | release _ _ => false

end HoldEvent

/-- What is held after these calls, the latest of which comes first. -/
def holdsOf : List HoldEvent → List Value
  | [] => []
  | .preserve v :: log => v :: holdsOf log
  | .release v _ :: log => (releaseFrom v (holdsOf log)).getD (holdsOf log)

/-- These calls were made since nothing was held, the latest of which comes first.  Anything else
    may have happened in between that leaves alone what is held. -/
inductive Logged : List HoldEvent → Session → Prop where
  | start {s : Session} (hnone : s.preserved = []) : Logged [] s
  | preserve {log : List HoldEvent} {s t : Session} (h : Logged log s) {v : Value}
      (hrun : SessionM.preserve v s = (.ok (), t)) : Logged (.preserve v :: log) t
  | release {log : List HoldEvent} {s t : Session} (h : Logged log s) {v : Value} {taken : Bool}
      (hrun : SessionM.release v s = (.ok taken, t)) : Logged (.release v taken :: log) t
  | meanwhile {log : List HoldEvent} {s t : Session} (h : Logged log s)
      (hsame : t.preserved = s.preserved) : Logged log t

end Session

namespace SessionM

variable {v : Value} {s t : Session} {taken : Bool}

theorem preserve_run (v : Value) (s : Session) :
    preserve v s = (.ok (), { s with preserved := v :: s.preserved }) := rfl

theorem release_run (v : Value) (s : Session) :
    release v s = match Session.releaseFrom v s.preserved with
      | some preserved => (.ok true, { s with preserved })
      | none => (.ok false, s) := by
  simp only [release, get_bind_run]
  cases Session.releaseFrom v s.preserved <;> rfl

theorem release_run_true_iff : release v s = (.ok true, t) ↔
    ∃ rest, Session.releaseFrom v s.preserved = some rest ∧ t = { s with preserved := rest } := by
  rw [release_run]
  constructor
  · intro hrun
    cases hrest : Session.releaseFrom v s.preserved with
    | none =>
      rw [hrest] at hrun
      cases hrun
    | some rest =>
      rw [hrest] at hrun
      cases hrun
      exact ⟨rest, rfl, rfl⟩
  · rintro ⟨rest, hrest, rfl⟩
    rw [hrest]

theorem release_run_false_iff : release v s = (.ok false, t) ↔
    Session.releaseFrom v s.preserved = none ∧ t = s := by
  rw [release_run]
  constructor
  · intro hrun
    cases hrest : Session.releaseFrom v s.preserved with
    | none =>
      rw [hrest] at hrun
      cases hrun
      exact ⟨rfl, rfl⟩
    | some rest =>
      rw [hrest] at hrun
      cases hrun
  · rintro ⟨hrest, rfl⟩
    rw [hrest]

theorem preserved_of_release (hrun : release v s = (.ok taken, t)) :
    t.preserved = (Session.releaseFrom v s.preserved).getD s.preserved := by
  cases taken with
  | true =>
    obtain ⟨rest, hrest, rfl⟩ := release_run_true_iff.1 hrun
    rw [hrest, Option.getD_some]
  | false =>
    obtain ⟨hnone, rfl⟩ := release_run_false_iff.1 hrun
    rw [hnone, Option.getD_none]

end SessionM

namespace Session

variable {log : List HoldEvent} {s t : Session} {v : Value}

namespace Logged

theorem preserved_eq (h : Logged log t) : t.preserved = holdsOf log := by
  induction h with
  | start hnone => exact hnone
  | preserve _ hrun ih =>
    rw [SessionM.preserve_run] at hrun
    cases hrun
    rw [holdsOf, ih]
  | release _ hrun ih => rw [SessionM.preserved_of_release hrun, ih, holdsOf]
  | meanwhile _ hsame ih => rw [hsame, ih]

/-- A value is held as often as it was preserved and not released. -/
theorem count (h : Logged log t) (v : Value) :
    t.preserved.countP (·.identical v) + log.countP (HoldEvent.releases v) =
      log.countP (HoldEvent.preserves v) := by
  induction h with
  | start hnone => simp [hnone]
  | @preserve log s t _ w hrun ih =>
    rw [SessionM.preserve_run] at hrun
    cases hrun
    cases hw : w.identical v <;> simp [hw] <;> omega
  | @release log s t _ w taken hrun ih =>
    cases taken with
    | true =>
      obtain ⟨rest, hrest, rfl⟩ := SessionM.release_run_true_iff.1 hrun
      have hcount := countP_releaseFrom hrest v
      cases hw : w.identical v <;> simp [hw] at hcount ⊢ <;> omega
    | false =>
      obtain ⟨-, rfl⟩ := SessionM.release_run_false_iff.1 hrun
      simpa using ih
  | meanwhile _ hsame ih => rwa [hsame]

/-- Argument lists are held as often as they were preserved. -/
theorem count_argLists (h : Logged log t) :
    t.preserved.countP Value.isArgList = log.countP HoldEvent.preservesArgList := by
  induction h with
  | start hnone => simp [hnone]
  | @preserve log s t _ w hrun ih =>
    rw [SessionM.preserve_run] at hrun
    cases hrun
    cases hw : w.isArgList <;> simp [hw, ih]
  | @release log s t _ w taken hrun ih =>
    -- no release is of an argument list, since those are identical to nothing
    have hsame : t.preserved.countP Value.isArgList = s.preserved.countP Value.isArgList := by
      rw [SessionM.preserved_of_release hrun]
      cases hrest : releaseFrom w s.preserved with
      | none => rfl
      | some rest => exact countP_isArgList_releaseFrom hrest
    simpa [hsame] using ih
  | meanwhile _ hsame ih => rwa [hsame]

end Logged

/-- Apart from the values identical to `v`, what is held is what the other calls would have left. -/
theorem holdsOf_filter (v : Value) (log : List HoldEvent) :
    holdsOf (log.filter (!·.concerns v)) = (holdsOf log).filter (!·.identical v) := by
  induction log with
  | nil => rfl
  | cons event log ih =>
    cases event with
    | preserve w =>
      have hconcerns : (HoldEvent.preserve w).concerns v = w.identical v := rfl
      cases hw : w.identical v <;> simp [hconcerns, holdsOf, hw, ih]
    | release w taken =>
      have hconcerns : (HoldEvent.release w taken).concerns v = w.identical v := rfl
      -- a release of an identical value takes out one that is filtered away in any case
      cases hw : w.identical v with
      | true =>
        cases hrest : releaseFrom w (holdsOf log) with
        | none => simp [hconcerns, holdsOf, hw, ih, hrest]
        | some rest => simp [hconcerns, holdsOf, hw, ih, hrest, filter_releaseFrom hrest hw]
      | false =>
        cases hrest : releaseFrom w (holdsOf log) <;>
          simp [hconcerns, holdsOf, hw, ih, releaseFrom_filter hw, hrest]

end Session

/-! ## What evaluation leaves alone -/

/-- Evaluation leaves alone what a host holds. -/
def Contract.holding : Contract where
  inv _ := True
  rel s t := t.preserved = s.preserved
  raises _ _ := True
  lenient := False
  refl _ := rfl
  trans hst htu := htu.trans hst
  inv_of_rel _ _ := trivial
  raises_of_rel _ _ _ := trivial
  move _ hmove := by cases hmove <;> rfl
  raises_failure _ _ := trivial
  raises_overflow _ _ := trivial
  raises_exhausted _ := trivial
  raises_returning _ _ _ := trivial
  inv_mark _ _ := trivial
  unmark _ _ hrel := hrel
  keep _ _ _ _ hrel := hrel
  raises_unmark _ _ _ := trivial
  inv_enter _ _ _ _ _ := trivial
  leave _ _ _ hrel := hrel
  raises_leave _ _ _ _ _ := trivial

theorem Contract.holding_loopBlind : holding.LoopBlind := fun _ _ _ _ => rfl

theorem evaluator_preserved (fuel : Nat) (task : Task) (s : Session) :
    (evaluator fuel task s).2.preserved = s.preserved :=
  (Contract.holding_loopBlind.closed.agree_evaluator fuel task s trivial).rel

namespace Session

variable {log : List HoldEvent} {t : Session}

theorem Logged.release_eq_true_iff (h : Logged log t) {v : Value} (hv : v.isArgList = false) :
    (∃ u, SessionM.release v t = (.ok true, u)) ↔
      log.countP (HoldEvent.releases v) < log.countP (HoldEvent.preserves v) := by
  have hcount := h.count v
  constructor
  · rintro ⟨u, hrun⟩
    obtain ⟨rest, hrest, -⟩ := SessionM.release_run_true_iff.1 hrun
    -- the value taken out is identical to `v`, so there was one such value at least
    have htaken := countP_releaseFrom hrest v
    rw [Value.identical_iff_same.2 (Value.Same.refl_iff.2 hv), if_pos rfl] at htaken
    omega
  · intro hmore
    cases hrest : releaseFrom v t.preserved with
    | none =>
      have hnone := releaseFrom_eq_none_iff.1 hrest
      omega
    | some rest => exact ⟨_, SessionM.release_run_true_iff.2 ⟨rest, hrest, rfl⟩⟩

/-- A value that was released as often as it was preserved is not held, and what is held is what the
    calls about other values have left. -/
theorem Logged.preserved_of_balanced (h : Logged log t) {v : Value}
    (hbalanced : log.countP (HoldEvent.releases v) = log.countP (HoldEvent.preserves v)) :
    t.preserved = holdsOf (log.filter (!·.concerns v)) := by
  have hnone : t.preserved.countP (·.identical v) = 0 := by
    have hcount := h.count v
    omega
  rw [holdsOf_filter, ← h.preserved_eq]
  refine (List.filter_eq_self.2 fun held hheld => ?_).symm
  simpa using List.countP_eq_zero.1 hnone held hheld

/-- After any calls that preserve and release values, with anything in between that leaves alone what
    is held, as evaluation does: a release answers true or false.  If it answers true, it has taken
    out one hold, of the same value, and changed nothing else; if it answers false, it has changed
    nothing.  For every value but an argument list, it answers true exactly if the value was
    preserved more often than released so far; and if it was released as often as preserved, what is
    held is what the calls about other values have left, and the next collection keeps a frame only
    if that or another root reaches it.  An argument list is never released, so argument lists are
    held as often as they were preserved. -/
theorem Logged.release_balanced (h : Logged log t) (v : Value) :
    (SessionM.release v t = (.ok false, t) ∨ ∃ newer held older,
      t.preserved = newer ++ held :: older ∧ held.Same v ∧
        SessionM.release v t = (.ok true, { t with preserved := newer ++ older })) ∧
    (v.isArgList = false →
      ((∃ u, SessionM.release v t = (.ok true, u)) ↔
        log.countP (HoldEvent.releases v) < log.countP (HoldEvent.preserves v))) ∧
    (v.isArgList = false →
      log.countP (HoldEvent.releases v) = log.countP (HoldEvent.preserves v) →
        t.preserved = holdsOf (log.filter (!·.concerns v)) ∧
        ∀ extra freed u, t.heap.WellFormed → SessionM.collect extra t = (.ok freed, u) →
          ∀ id f, u.heap.frame? id = some f ↔ t.heap.frame? id = some f ∧
            t.heap.Reaches t.promises (Heap.StartsFrom t.promises t.rootEnvs (extra ++
              { t with preserved := holdsOf (log.filter (!·.concerns v)) }.rootValues)) id) ∧
    (v.isArgList = true → SessionM.release v t = (.ok false, t)) ∧
    t.preserved.countP Value.isArgList = log.countP HoldEvent.preservesArgList ∧
    ∀ fuel task, (evaluator fuel task t).2.preserved = t.preserved := by
  refine ⟨?_, fun hv => h.release_eq_true_iff hv, fun _ hbalanced => ?_, fun hv => ?_,
    h.count_argLists, fun fuel task => evaluator_preserved fuel task t⟩
  · cases hrest : releaseFrom v t.preserved with
    | none => exact .inl (SessionM.release_run_false_iff.2 ⟨hrest, rfl⟩)
    | some rest =>
      obtain ⟨newer, held, older, hheld, hsame, -, rfl⟩ := releaseFrom_eq_some hrest
      exact .inr ⟨newer, held, older, hheld, Value.identical_iff_same.1 hsame,
        SessionM.release_run_true_iff.2 ⟨_, hrest, rfl⟩⟩
  · have hheld := h.preserved_of_balanced hbalanced
    refine ⟨hheld, fun extra freed u hwf hcollect id f => ?_⟩
    rw [← hheld]
    cases hdone : t.heap.collect t.promises t.rootEnvs (extra ++ t.rootValues) with
    | none =>
      rw [SessionM.collect_run_refused hdone] at hcollect
      cases hcollect
    | some result =>
      obtain ⟨count, heap⟩ := result
      rw [SessionM.collect_run hdone] at hcollect
      cases hcollect
      exact hwf.frame?_collect hdone
  · refine SessionM.release_run_false_iff.2 ⟨releaseFrom_eq_none_iff.2 ?_, rfl⟩
    simp [Value.identical_of_isArgList hv]

/-- A closure is preserved twice and released twice, and then the frame in which it was defined goes
    away. -/
theorem Logged.release_balanced_twice :
    let f : Value := .closure ⟨⟨0⟩, [], .null, ⟨2, 0⟩⟩
    let other : Value := .environment ⟨1, 0⟩
    let log : List HoldEvent :=
      [.release f true, .release f true, .preserve other, .preserve f, .preserve f]
    ∃ t, Logged log t ∧ t.heap.contains ⟨2, 0⟩ = true ∧ t.heap.WellFormed ∧
      SessionM.release f t = (.ok false, t) ∧ t.preserved = [other] ∧
      ∃ u, SessionM.collect [] t = (.ok 1, u) ∧ u.heap.contains ⟨2, 0⟩ = false := by
  intro f other log
  let s := (SessionM.allocate none (Session.initial {} .empty)).2
  let held (preserved : List Value) : Session := { s with preserved }
  have hlogged : Logged log (held [other]) := by
    have hnone : Logged [] s := .start rfl
    have htwice := (hnone.preserve (SessionM.preserve_run f s)).preserve
      (SessionM.preserve_run f (held [f]))
    have hother := htwice.preserve (SessionM.preserve_run other (held [f, f]))
    have honce := hother.release
      (rfl : SessionM.release f (held [other, f, f]) = (.ok true, held [other, f]))
    exact honce.release (rfl : SessionM.release f (held [other, f]) = (.ok true, held [other]))
  have hwf : s.heap.WellFormed :=
    ((Heap.wellFormed_empty.insert Session.baseFrame).allocate _).allocate none
  obtain ⟨hanswer, hmore, -⟩ := hlogged.release_balanced f
  refine ⟨held [other], hlogged, rfl, hwf, ?_, rfl, _, rfl, by decide +kernel⟩
  obtain hfalse | ⟨_, _, _, _, _, htrue⟩ := hanswer
  · exact hfalse
  · exact absurd ((hmore rfl).1 ⟨_, htrue⟩) (by decide)

end Session

end CallByNeed
