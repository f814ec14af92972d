import CallByNeed.Proofs.Failures
import CallByNeed.Proofs.Run

/-!
# Contracts of evaluation

A contract is an invariant of sessions together with a relation from the session
before an action to the one after it, and with what an interrupt may say.  It
asks for its relation at the small moves of a session and at the brackets around
promises and invocations only; that every rule of evaluation keeps it follows
once and for all, rule by rule.

The rules are written for an arbitrary evaluator, and a contract speaks of two
evaluators at once (`Contract.Agree`): they may differ in sessions that break
the invariant, and the rules cannot tell them apart.  So a rule hands on its
tasks in sessions with the invariant only.  A lenient contract also lets the
second evaluator run out of fuel where the first one goes on; then so does
every rule, since nothing catches that.
-/

namespace CallByNeed

/-- An invariant, a relation from before to after, and what an action may be interrupted by,
    together with what makes every rule of evaluation keep them. -/
structure Contract where
  inv : Session → Prop
  rel : Session → Session → Prop
  /-- What an action that begins in this session may be interrupted by. -/
  raises : Session → Interrupt → Prop
  /-- Whether the second of two evaluators may run out of fuel where the first one does not. -/
  lenient : Prop
  /-- What is known of a value that the evaluation of an expression has come to, besides. -/
  gives : (expr : Value) → EnvId → Session → (value : Value) → Session → Prop :=
    fun _ _ _ _ _ => True
  gives_evaluator : ∀ {fuel expr env s value t},
    (evaluator fuel).evaluate expr env s = (.ok value, t) → gives expr env s value t := by
      intros; trivial
  refl : ∀ s, rel s s
  trans : ∀ {s t u}, rel s t → rel t u → rel s u
  inv_of_rel : ∀ {s t}, inv s → rel s t → inv t
  raises_of_rel : ∀ {s t e}, inv s → rel s t → raises t e → raises s e
  move : ∀ {s t}, inv s → s.Move t → rel s t
  raises_failure : ∀ {s e}, inv s → e.isOverflow = false → raises s (.failure e)
  raises_overflow : ∀ {s}, inv s → s.options.maxCallDepth ≤ s.depth →
    raises s (.failure (.stackOverflow s.depth))
  raises_exhausted : ∀ {s}, inv s → raises s .exhausted
  raises_returning : ∀ {s t env value}, inv s → (s.invocationOf? env).isSome → rel s t →
    raises t (.returning env value)
  /-- A waiting promise may be marked. -/
  inv_mark : ∀ {s id expr env}, inv s →
    s.promises.get? id = some ⟨expr, .waiting env false⟩ → inv (s.mark id true)
  /-- The evaluation of a marked promise may fail, which takes the mark back. -/
  unmark : ∀ {s t id expr env}, inv s →
    s.promises.get? id = some ⟨expr, .waiting env false⟩ → rel (s.mark id true) t →
    rel s (t.mark id false)
  /-- The evaluation of a marked promise may give it its value. -/
  keep : ∀ {s t id expr env} (value : Value), inv s →
    s.promises.get? id = some ⟨expr, .waiting env false⟩ → gives expr env (s.mark id true) value t →
    rel (s.mark id true) t → rel s ((t.mark id false).keep id value)
  raises_unmark : ∀ {s id expr env e}, inv s →
    s.promises.get? id = some ⟨expr, .waiting env false⟩ → raises (s.mark id true) e →
    raises s e
  /-- An invocation may be entered once its frame was made, if there are not too many. -/
  inv_enter : ∀ {s} (parent : Option EnvId) (i : Invocation), inv s →
    i.env = (s.heap.allocate parent).1 → s.depth < s.options.maxCallDepth →
    inv ({ s with heap := (s.heap.allocate parent).2 }.enter i)
  leave : ∀ {s t} (i : Invocation), inv s → s.depth < s.options.maxCallDepth →
    rel (s.enter i) t → rel s t.leave
  /-- A return that aims at an invocation does not leave it. -/
  raises_leave : ∀ {s e} (i : Invocation), inv s → s.depth < s.options.maxCallDepth →
    (∀ value, e ≠ .returning i.env value) → raises (s.enter i) e → raises s e

namespace Contract

variable (C : Contract) {α β : Type}

/-- In this session, both actions do the same, and that keeps the contract. -/
structure AgreeAt (s : Session) (x y : SessionM α) : Prop where
  same : x s = y s ∨ C.lenient ∧ (y s).1 = .error .exhausted
  rel : C.rel s (y s).2
  raises : ∀ e, (y s).1 = .error e → C.raises s e

/-- In every session with the invariant, both actions do the same, and that keeps the contract. -/
def Agree (x y : SessionM α) : Prop := ∀ s, C.inv s → C.AgreeAt s x y

abbrev Keeps (x : SessionM α) : Prop := C.Agree x x

/-- Both evaluators carry out every task alike, and that keeps the contract.  What the first one
    gives for an expression is what the contract knows of values. -/
structure AgreeAll (ev₁ ev₂ : Evaluator) : Prop where
  tasks : ∀ task, C.Agree (ev₁ task) (ev₂ task)
  gives : ∀ {expr env s value t}, C.inv s → ev₁.evaluate expr env s = (.ok value, t) →
    C.gives expr env s value t

instance {ev₁ ev₂ : Evaluator} :
    CoeFun (C.AgreeAll ev₁ ev₂) fun _ => ∀ task, C.Agree (ev₁ task) (ev₂ task) :=
  ⟨AgreeAll.tasks⟩

variable {C}

/-! ## Sequences of actions -/

theorem AgreeAt.of_run {s t : Session} {outcome : Except Interrupt α} {x y : SessionM α}
    (hx : x s = (outcome, t)) (hy : y s = (outcome, t)) (hrel : C.rel s t)
    (hraises : ∀ e, outcome = .error e → C.raises s e) : C.AgreeAt s x y := by
  refine ⟨.inl (hx.trans hy.symm), ?_, ?_⟩ <;> rw [hy]
  · exact hrel
  · exact hraises

theorem AgreeAt.of_eq {s : Session} {x y : SessionM α} (h : x s = y s) (hy : C.AgreeAt s y y) :
    C.AgreeAt s x y :=
  ⟨.inl h, hy.rel, hy.raises⟩

/-- Running out of fuel agrees with everything if the contract is lenient. -/
theorem AgreeAt.of_exhausted {s t : Session} {x y : SessionM α} (hinv : C.inv s)
    (hlenient : C.lenient) (hy : y s = (.error .exhausted, t)) (hrel : C.rel s t) :
    C.AgreeAt s x y := by
  refine ⟨.inr ⟨hlenient, by rw [hy]⟩, by rw [hy]; exact hrel, fun e he => ?_⟩
  rw [hy] at he
  cases he
  exact C.raises_exhausted hinv

/-- The actions that follow need to agree only in the session and for the value that the first ones
    left. -/
theorem AgreeAt.bind {s : Session} {x y : SessionM α} {f g : α → SessionM β} (hinv : C.inv s)
    (hxy : C.AgreeAt s x y)
    (hf : ∀ a t, y s = (.ok a, t) → C.rel s t → C.inv t → C.AgreeAt t (f a) (g a)) :
    C.AgreeAt s (x >>= f) (y >>= g) := by
  obtain ⟨hsame, hrel, hraises⟩ := hxy
  cases hy : y s with
  | mk outcome t =>
    rw [hy] at hsame hrel hraises
    cases outcome with
    | error e =>
      have hgy := SessionM.bind_run_error hy g
      rcases hsame with hx | ⟨hlenient, he⟩
      · exact .of_run (SessionM.bind_run_error hx f) hgy hrel
          fun e' he => by cases he; exact hraises e rfl
      · cases he
        exact .of_exhausted hinv hlenient hgy hrel
    | ok a =>
      -- the second action came to a value, so the first one did the same even if `C` is lenient
      have hx : x s = (.ok a, t) := hsame.resolve_right fun h => nomatch h.2
      obtain ⟨hsame', hrel', hraises'⟩ := hf a t hy hrel (C.inv_of_rel hinv hrel)
      refine ⟨?_, ?_, ?_⟩
      · rwa [SessionM.bind_run_ok hx, SessionM.bind_run_ok hy]
      · rw [SessionM.bind_run_ok hy]
        exact C.trans hrel hrel'
      · intro e he
        rw [SessionM.bind_run_ok hy] at he
        exact C.raises_of_rel hinv hrel (hraises' e he)

theorem Agree.bind {x y : SessionM α} {f g : α → SessionM β} (hx : C.Agree x y)
    (hf : ∀ a, C.Agree (f a) (g a)) : C.Agree (x >>= f) (y >>= g) :=
  fun s hinv => (hx s hinv).bind hinv fun a t _ _ ht => hf a t ht

/-- The actions agree in every session that an action begun in `s` may have come to. -/
def AgreeFrom (C : Contract) (s : Session) (x y : SessionM α) : Prop :=
  ∀ t, C.rel s t → C.AgreeAt t x y

theorem Agree.from {s : Session} {x y : SessionM α} (hinv : C.inv s) (h : C.Agree x y) :
    C.AgreeFrom s x y :=
  fun t hrel => h t (C.inv_of_rel hinv hrel)

theorem AgreeFrom.bind {s : Session} {x y : SessionM α} {f g : α → SessionM β} (hinv : C.inv s)
    (hx : C.AgreeFrom s x y) (hf : ∀ a, C.AgreeFrom s (f a) (g a)) :
    C.AgreeFrom s (x >>= f) (y >>= g) :=
  fun t hrel => (hx t hrel).bind (C.inv_of_rel hinv hrel) fun a u _ hrel' _ =>
    hf a u (C.trans hrel hrel')

/-- An invocation that was active when an action began may be returned from at its end. -/
theorem returning_from {s : Session} {env : EnvId} (hinv : C.inv s)
    (h : (s.invocationOf? env).isSome) (value : Value) :
    C.AgreeFrom s (throw (.returning env value) : SessionM α) (throw (.returning env value)) :=
  fun t hrel => .of_run rfl rfl (C.refl t) fun _ he => by
    cases he
    exact C.raises_returning hinv h hrel

theorem keeps_pure (a : α) : C.Keeps (pure a : SessionM α) := fun s _ =>
  .of_run rfl rfl (C.refl s) fun _ h => nomatch h

theorem Agree.map {x y : SessionM α} (f : α → β) (hx : C.Agree x y) :
    C.Agree (f <$> x) (f <$> y) := by
  rw [← bind_pure_comp, ← bind_pure_comp]
  exact hx.bind fun a => keeps_pure _

theorem keeps_get : C.Keeps (get : SessionM Session) := fun s _ =>
  .of_run rfl rfl (C.refl s) fun _ h => nomatch h

theorem keeps_fail {e : EvalError} (he : e.isOverflow = false) :
    C.Keeps (SessionM.fail e : SessionM α) := fun s hinv =>
  .of_run rfl rfl (C.refl s) fun _ h => by cases h; exact C.raises_failure hinv he

theorem keeps_exhausted : C.Keeps (throw .exhausted : SessionM α) := fun s hinv =>
  .of_run rfl rfl (C.refl s) fun _ h => by cases h; exact C.raises_exhausted hinv

theorem keeps_modifyGet (f : Session → α × Session) (h : ∀ s, C.inv s → C.rel s (f s).2) :
    C.Keeps (modifyGet f : SessionM α) := fun s hinv =>
  .of_run rfl rfl (h s hinv) fun _ h => nomatch h

theorem Agree.ite {p : Prop} [Decidable p] {x₁ x₂ y₁ y₂ : SessionM α} (hpos : C.Agree x₁ y₁)
    (hneg : C.Agree x₂ y₂) : C.Agree (if p then x₁ else x₂) (if p then y₁ else y₂) := by
  split
  · exact hpos
  · exact hneg

theorem Agree.forM {f g : α → SessionM PUnit} {items : List α} (h : ∀ a, C.Agree (f a) (g a)) :
    C.Agree (items.forM f) (items.forM g) := by
  induction items with
  | nil => exact keeps_pure _
  | cons a rest ih => exact (h a).bind fun _ => ih

theorem Agree.mapM {f g : α → SessionM β} {items : List α} (h : ∀ a, C.Agree (f a) (g a)) :
    C.Agree (items.mapM f) (items.mapM g) := by
  induction items with
  | nil => exact keeps_pure _
  | cons a rest ih =>
    rw [List.mapM_cons, List.mapM_cons]
    exact (h a).bind fun b => ih.bind fun bs => keeps_pure _

/-- Dropping an error or a return keeps a contract; running out of fuel is passed on. -/
theorem Agree.attempt {x y : SessionM α} (h : C.Agree x y) :
    C.Agree (SessionM.attempt x) (SessionM.attempt y) := by
  intro s hinv
  obtain ⟨hsame, hrel, -⟩ := h s hinv
  -- only the third outcome, being out of fuel, is left as it is
  rcases hy : y s with ⟨(error | ⟨target, value⟩ | _) | a, t⟩ <;> rw [hy] at hsame hrel
  · have hx := hsame.resolve_right (by rintro ⟨-, h⟩; cases h)
    have hdo {z : SessionM α} (hz : z s = (.error (.failure error), t)) :
        SessionM.attempt z s = (.ok none, t) := by simp only [SessionM.attempt, hz]
    exact .of_run (hdo hx) (hdo hy) hrel fun _ h => by cases h
  · have hx := hsame.resolve_right (by rintro ⟨-, h⟩; cases h)
    have hdo {z : SessionM α} (hz : z s = (.error (.returning target value), t)) :
        SessionM.attempt z s = (.ok none, t) := by simp only [SessionM.attempt, hz]
    exact .of_run (hdo hx) (hdo hy) hrel fun _ h => by cases h
  · have hdo {z : SessionM α} (hz : z s = (.error .exhausted, t)) :
        SessionM.attempt z s = (.error .exhausted, t) := by simp only [SessionM.attempt, hz]
    rcases hsame with hx | ⟨hlenient, -⟩
    · exact .of_run (hdo hx) (hdo hy) hrel fun _ h => by cases h; exact C.raises_exhausted hinv
    · exact .of_exhausted hinv hlenient (hdo hy) hrel
  · have hx := hsame.resolve_right (by rintro ⟨-, h⟩; cases h)
    exact .of_run (SessionM.attempt_run_ok hx) (SessionM.attempt_run_ok hy) hrel
      fun _ h => by cases h

end Contract

end CallByNeed
