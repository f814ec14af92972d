import CallByNeed.Proofs.Dangling.Sessions
import CallByNeed.Proofs.Failures

/-!
# Safe actions

An action that is begun in a safe session is safe there (`Session.SafeAt`) if it
leaves a safe session that admits whatever was admitted before, if its value is
as it should be, and if it meets no stale environment; a return that ends it
carries an admitted value.  Safe actions make safe sequences (`SafeAt.bind`).

Many actions only look at the session (`Session.Reads`).  After those, everything
that was known of the session is known still.
-/

namespace CallByNeed.Session

variable {α β : Type} {s t : Session} {P Q : Session → α → Prop} {R : Session → β → Prop}

/-- What a safe action may be interrupted by, told from the session at its end. -/
def Lets (s : Session) : Interrupt → Prop
  | .failure e => e.isStale = false
  | .returning _ value => s.Admits value
  | .exhausted => True

/-- What an action may be interrupted by, it may be interrupted by in every later session too. -/
theorem Onward.lets (h : s.Onward t) {e : Interrupt} (he : s.Lets e) : t.Lets e := by
  cases e with
  | returning target value => exact h.admits he
  | failure e => exact he
  | exhausted => trivial

/-- Begun in this session, the action leaves a safe session and has a value of this kind, if it has
    one. -/
structure SafeAt (s : Session) (x : SessionM α) (P : Session → α → Prop) : Prop where
  onward : s.Onward (x s).2
  value : ∀ a, (x s).1 = .ok a → P (x s).2 a
  raises : ∀ e, (x s).1 = .error e → (x s).2.Lets e

namespace SafeAt

theorem of_ok {x : SessionM α} {a : α} (h : x s = (.ok a, t)) (ht : s.Onward t) (hP : P t a) :
    SafeAt s x P := by
  constructor <;> rw [h]
  case onward => exact ht
  case value =>
    intro b hb
    cases hb
    exact hP
  case raises => exact fun _ he => nomatch he

theorem of_error {x : SessionM α} {e : Interrupt} (h : x s = (.error e, t)) (ht : s.Onward t)
    (he : t.Lets e) : SafeAt s x P := by
  constructor <;> rw [h]
  case onward => exact ht
  case value => exact fun _ hb => nomatch hb
  case raises =>
    intro e' he'
    cases he'
    exact he

theorem weaken {x : SessionM α} (h : SafeAt s x P)
    (hPQ : ∀ a t, s.Onward t → P t a → Q t a) : SafeAt s x Q :=
  ⟨h.onward, fun a ha => hPQ a _ h.onward (h.value a ha), h.raises⟩

theorem pure (hs : s.Safe) {a : α} (ha : P s a) : SafeAt s (pure a) P :=
  .of_ok rfl (.refl hs) ha

theorem fail (hs : s.Safe) {e : EvalError} (he : e.isStale = false) :
    SafeAt s (SessionM.fail e) P :=
  .of_error rfl (.refl hs) he

theorem exhausted (hs : s.Safe) : SafeAt s (throw .exhausted : SessionM α) P :=
  .of_error rfl (.refl hs) trivial

theorem modifyGet {f : Session → α × Session} (h : s.Onward (f s).2) (hP : P (f s).2 (f s).1) :
    SafeAt s (modifyGet f : SessionM α) P :=
  .of_ok rfl h hP

/-- What the first action leaves is where the second one begins. -/
theorem bind {x : SessionM α} {f : α → SessionM β} (hx : SafeAt s x P)
    (hf : ∀ a t, s.Onward t → P t a → SafeAt t (f a) R) : SafeAt s (x >>= f) R := by
  obtain ⟨honward, hvalue, hraises⟩ := hx
  rcases hrun : x s with ⟨e | a, t⟩ <;> rw [hrun] at honward hvalue hraises
  · exact .of_error (SessionM.bind_run_error hrun f) honward (hraises e rfl)
  · obtain ⟨honward', hvalue', hraises'⟩ := hf a t honward (hvalue a rfl)
    constructor <;> rw [SessionM.bind_run_ok hrun]
    case onward => exact honward.trans honward'
    case value => exact hvalue'
    case raises => exact hraises'

theorem ite {p : Prop} [Decidable p] {x y : SessionM α} (hx : p → SafeAt s x P)
    (hy : ¬ p → SafeAt s y P) : SafeAt s (if p then x else y) P := by
  split
  · rename_i hp
    exact hx hp
  · rename_i hp
    exact hy hp

/-- The session of each item is one that the list began from. -/
theorem forM {f : α → SessionM PUnit} {items : List α} (hs : s.Safe)
    (h : ∀ a ∈ items, ∀ t, s.Onward t → SafeAt t (f a) fun _ _ => True) :
    SafeAt s (items.forM f) fun _ _ => True := by
  induction items generalizing s with
  | nil => exact pure hs trivial
  | cons a rest ih =>
    refine (h a List.mem_cons_self s (.refl hs)).bind fun _ t ht _ => ?_
    exact ih ht.safe fun b hb u hu => h b (.tail _ hb) u (ht.trans hu)

theorem mapM {f : α → SessionM β} {items : List α} (hs : s.Safe)
    (hmono : ∀ {t u b}, Onward t u → R t b → R u b)
    (h : ∀ a ∈ items, ∀ t, s.Onward t → SafeAt t (f a) R) :
    SafeAt s (items.mapM f) fun t bs => ∀ b ∈ bs, R t b := by
  induction items generalizing s with
  | nil => exact pure hs fun _ hb => nomatch hb
  | cons a rest ih =>
    rw [List.mapM_cons]
    refine (h a List.mem_cons_self s (.refl hs)).bind fun b t ht hb => ?_
    have hrest := ih ht.safe fun c hc u hu => h c (.tail _ hc) u (ht.trans hu)
    refine hrest.bind fun bs u hu hbs => pure hu.safe fun c hc => ?_
    obtain rfl | hc := List.mem_cons.1 hc
    · exact hmono hu hb
    · exact hbs c hc

/-- An error or a return is dropped. -/
theorem attempt {x : SessionM α} (hx : SafeAt s x P) :
    SafeAt s (SessionM.attempt x) fun t found => ∀ a ∈ found, P t a := by
  obtain ⟨honward, hvalue, -⟩ := hx
  rcases hrun : x s with ⟨(error | ⟨target, value⟩ | _) | a, t⟩ <;> rw [hrun] at honward hvalue
  · exact .of_ok (a := none) (by simp only [SessionM.attempt, hrun]) honward
      fun _ ha => nomatch ha
  · exact .of_ok (a := none) (by simp only [SessionM.attempt, hrun]) honward
      fun _ ha => nomatch ha
  · exact .of_error (e := .exhausted) (by simp only [SessionM.attempt, hrun]) honward trivial
  · refine .of_ok (SessionM.attempt_run_ok hrun) honward fun b hb => ?_
    cases hb
    exact hvalue a rfl

end SafeAt

/-! ## Looking only -/

/-- The action leaves the session as it is, and has a value of this kind or fails; it meets no stale
    environment. -/
def Reads (s : Session) (x : SessionM α) (P : α → Prop) : Prop :=
  (∃ a, x s = (.ok a, s) ∧ P a) ∨ ∃ e, x s = (.error (.failure e), s) ∧ e.isStale = false

namespace Reads

variable {P : α → Prop} {R : β → Prop}

theorem pure {a : α} (ha : P a) : Reads s (pure a) P := .inl ⟨a, rfl, ha⟩

theorem fail {e : EvalError} (he : e.isStale = false) : Reads s (SessionM.fail e) P :=
  .inr ⟨e, rfl, he⟩

theorem get {P : Session → Prop} (h : P s) : Reads s (MonadState.get : SessionM Session) P :=
  .inl ⟨s, rfl, h⟩

theorem ofExcept {r : Except EvalError α} (hr : Plain r) (hP : ∀ a, r = .ok a → P a) :
    Reads s (SessionM.ofExcept r) P := by
  cases r with
  | ok a => exact pure (hP a rfl)
  | error e => exact fail (hr.staleless rfl)

theorem askHeap_ok {ask : Heap → Except EvalError α} {a : α} (h : ask s.heap = .ok a)
    (ha : P a) : Reads s (SessionM.askHeap ask) P :=
  .inl ⟨a, SessionM.askHeap_run_ok h, ha⟩

theorem askHeap_error {ask : Heap → Except EvalError α} {e : EvalError}
    (h : ask s.heap = .error e) (he : e.isStale = false) : Reads s (SessionM.askHeap ask) P :=
  .inr ⟨e, SessionM.askHeap_run_error h, he⟩

theorem bind {x : SessionM α} {f : α → SessionM β} (hx : Reads s x P)
    (hf : ∀ a, P a → Reads s (f a) R) : Reads s (x >>= f) R := by
  obtain ⟨a, ha, hPa⟩ | ⟨e, he, hstale⟩ := hx
  · obtain ⟨b, hb, hRb⟩ | ⟨e, he, hstale⟩ := hf a hPa
    · exact .inl ⟨b, (SessionM.bind_run_ok ha f).trans hb, hRb⟩
    · exact .inr ⟨e, (SessionM.bind_run_ok ha f).trans he, hstale⟩
  · exact .inr ⟨e, SessionM.bind_run_error he f, hstale⟩

/-- What comes after a look begins in the same session. -/
theorem andThen {R : Session → β → Prop} {x : SessionM α} {f : α → SessionM β} (hs : s.Safe)
    (hx : Reads s x P) (hf : ∀ a, P a → SafeAt s (f a) R) : SafeAt s (x >>= f) R := by
  obtain ⟨a, ha, hPa⟩ | ⟨e, he, hstale⟩ := hx
  · obtain ⟨honward, hvalue, hraises⟩ := hf a hPa
    constructor <;> rw [SessionM.bind_run_ok ha]
    case onward => exact honward
    case value => exact hvalue
    case raises => exact hraises
  · exact .of_error (SessionM.bind_run_error he f) (.refl hs) hstale

theorem safeAt {P : Session → α → Prop} {x : SessionM α} (hs : s.Safe) (hx : Reads s x (P s)) :
    SafeAt s x P := by
  obtain ⟨a, ha, hPa⟩ | ⟨e, he, hstale⟩ := hx
  · exact .of_ok ha (.refl hs) hPa
  · exact .of_error he (.refl hs) hstale

end Reads

end CallByNeed.Session
