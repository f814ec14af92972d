import CallByNeed.Proofs.Run
import CallByNeed.Proofs.Twins.Sessions

/-!
# Actions on twins

An action is taken on either side of twins, on what the bridge relates.  The sides
keep in step (`Twins.Runs`) if both have a value, or fail with the same error, or
return to related environments, and if there are twins again afterwards.  Two
actions that keep in step, one after the other, keep in step (`Runs.bind`).

Many actions only look at the session (`Twins.Looks`); the twins are the same
afterwards.
-/

namespace CallByNeed

variable {α β γ : Type}

/-- Two choices that are made alike are related if what is chosen is. -/
theorem rel_ite {R : α → β → Prop} {p q : Prop} [Decidable p] [Decidable q] {x x' : α} {y y' : β}
    (hpq : q ↔ p) (hpos : p → R x y) (hneg : ¬ p → R x' y') :
    R (if p then x else x') (if q then y else y') := by
  by_cases hp : p
  · rw [if_pos hp, if_pos (hpq.2 hp)]
    exact hpos hp
  · rw [if_neg hp, if_neg fun hq => hp (hpq.1 hq)]
    exact hneg hp

/-- Outcomes that are the same on both sides of the bridge: related values, one and the same error,
    or returns of related values to related environments. -/
inductive Bridge.Ends (b : Bridge) (R : α → α → Prop) :
    Except Interrupt α → Except Interrupt α → Prop where
  | value {a a' : α} (h : R a a') : b.Ends R (.ok a) (.ok a')
  | failure (e : EvalError) : b.Ends R (.error (.failure e)) (.error (.failure e))
  | returning {target target' : EnvId} {v v' : Value} (htarget : b.Relates target target')
    (hv : b.Clean v v') : b.Ends R (.error (.returning target v)) (.error (.returning target' v'))
  | exhausted : b.Ends R (.error .exhausted) (.error .exhausted)

namespace Twins

variable {w z : Twins} {R Q : Bridge → α → α → Prop} {S : Bridge → β → β → Prop}

/-- Begun on the two sides the actions end alike, and leave twins. -/
def Runs (w : Twins) (x y : SessionM α) (R : Bridge → α → α → Prop) : Prop :=
  ∃ z : Twins, ∃ o o', w ≤ z ∧ x w.left = (o, z.left) ∧ y w.right = (o', z.right) ∧
    z.bridge.Ends (R z.bridge) o o'

namespace Runs

variable {x y : SessionM α} {a a' : α}

theorem of_run {o o' : Except Interrupt α} (hz : w ≤ z) (hx : x w.left = (o, z.left))
    (hy : y w.right = (o', z.right)) (h : z.bridge.Ends (R z.bridge) o o') : w.Runs x y R :=
  ⟨z, o, o', hz, hx, hy, h⟩

theorem weaken (h : w.Runs x y R) (hRQ : ∀ z a a', w ≤ z → R z.bridge a a' → Q z.bridge a a') :
    w.Runs x y Q := by
  obtain ⟨z, o, o', hz, hx, hy, hends⟩ := h
  refine .of_run hz hx hy ?_
  cases hends with
  | value h => exact .value (hRQ z _ _ hz h)
  | failure e => exact .failure e
  | returning htarget hv => exact .returning htarget hv
  | exhausted => exact .exhausted

theorem pure (h : R w.bridge a a') : w.Runs (pure a) (pure a') R :=
  .of_run le_rfl rfl rfl (.value h)

theorem fail (e : EvalError) : w.Runs (SessionM.fail e) (SessionM.fail e) R :=
  .of_run le_rfl rfl rfl (.failure e)

theorem exhausted : w.Runs (throw .exhausted) (throw .exhausted) R :=
  .of_run le_rfl rfl rfl .exhausted

theorem returning {target target' : EnvId} {v v' : Value}
    (htarget : w.bridge.Relates target target') (hv : w.bridge.Clean v v') :
    w.Runs (throw (.returning target v)) (throw (.returning target' v')) R :=
  .of_run le_rfl rfl rfl (.returning htarget hv)

/-- A change of the session that is made on both sides. -/
theorem modifyGet {f g : Session → α × Session} (hz : w ≤ z) (hleft : (f w.left).2 = z.left)
    (hright : (g w.right).2 = z.right) (h : R z.bridge (f w.left).1 (g w.right).1) :
    w.Runs (modifyGet f) (modifyGet g) R :=
  .of_run hz (Prod.ext rfl hleft) (Prod.ext rfl hright) (.value h)

/-- What the first actions leave is where the second ones begin. -/
theorem bind {f g : α → SessionM β} (hx : w.Runs x y R)
    (hf : ∀ a a' z, w ≤ z → R z.bridge a a' → z.Runs (f a) (g a') S) :
    w.Runs (x >>= f) (y >>= g) S := by
  obtain ⟨z, o, o', hz, hrun, hrun', hends⟩ := hx
  cases hends with
  | value h =>
    obtain ⟨z', o, o', hz', hnext, hnext', hends⟩ := hf _ _ z hz h
    exact .of_run (hz.trans hz') ((SessionM.bind_run_ok hrun f).trans hnext)
      ((SessionM.bind_run_ok hrun' g).trans hnext') hends
  | failure e =>
    exact .of_run hz (SessionM.bind_run_error hrun f) (SessionM.bind_run_error hrun' g) (.failure e)
  | returning htarget hv =>
    exact .of_run hz (SessionM.bind_run_error hrun f) (SessionM.bind_run_error hrun' g)
      (.returning htarget hv)
  | exhausted =>
    exact .of_run hz (SessionM.bind_run_error hrun f) (SessionM.bind_run_error hrun' g) .exhausted

theorem get_bind {f g : Session → SessionM β} (h : w.Runs (f w.left) (g w.right) S) :
    w.Runs (MonadState.get >>= f) (MonadState.get >>= g) S := h

theorem ite {p q : Prop} [Decidable p] [Decidable q] {x' y' : SessionM α} (hpq : q ↔ p)
    (hpos : p → w.Runs x y R) (hneg : ¬ p → w.Runs x' y' R) :
    w.Runs (if p then x else x') (if q then y else y') R :=
  rel_ite (R := fun x y => w.Runs x y R) hpq hpos hneg

/-- The items are related when the list is begun, and stay so. -/
theorem forM {P : Bridge → γ → γ → Prop} (hmono : ∀ b c e e', b ≤ c → P b e e' → P c e e')
    {f g : γ → SessionM PUnit} {items items' : List γ}
    (h : ∀ e e' z, w ≤ z → P z.bridge e e' → z.Runs (f e) (g e') fun _ _ _ => True)
    (hitems : List.Forall₂ (P w.bridge) items items') :
    w.Runs (items.forM f) (items'.forM g) fun _ _ _ => True := by
  induction items generalizing w items' with
  | nil =>
    cases hitems
    exact .pure trivial
  | cons e rest ih =>
    cases hitems with
    | @cons _ e' _ rest' he hrest =>
      refine (h e e' w le_rfl he).bind fun _ _ z hz _ => ?_
      exact ih (fun e e' y hy => h e e' y (hz.trans hy))
        (hrest.imp fun _ _ => hmono _ _ _ _ hz.bridge)

theorem mapM {P : Bridge → γ → γ → Prop} (hmono : ∀ b c e e', b ≤ c → P b e e' → P c e e')
    (hmono' : ∀ b c e e', b ≤ c → S b e e' → S c e e')
    {f g : γ → SessionM β} {items items' : List γ}
    (h : ∀ e e' z, w ≤ z → P z.bridge e e' → z.Runs (f e) (g e') S)
    (hitems : List.Forall₂ (P w.bridge) items items') :
    w.Runs (items.mapM f) (items'.mapM g) fun b => List.Forall₂ (S b) := by
  induction items generalizing w items' with
  | nil =>
    cases hitems
    exact .pure .nil
  | cons e rest ih =>
    cases hitems with
    | @cons _ e' _ rest' he hrest =>
      rw [List.mapM_cons, List.mapM_cons]
      refine (h e e' w le_rfl he).bind fun out out' z hz hout => ?_
      refine (ih (fun e e' y hy => h e e' y (hz.trans hy))
        (hrest.imp fun _ _ => hmono _ _ _ _ hz.bridge)).bind fun outs outs' y hy houts => ?_
      exact .pure (.cons (hmono' _ _ _ _ hy.bridge hout) houts)

/-- An error or a return is dropped on both sides. -/
theorem attempt (hx : w.Runs x y R) :
    w.Runs (SessionM.attempt x) (SessionM.attempt y) fun b => Option.Rel (R b) := by
  obtain ⟨z, o, o', hz, hrun, hrun', hends⟩ := hx
  have hattempt {act : SessionM α} {s t : Session} {o : Except Interrupt α} (h : act s = (o, t)) :
      SessionM.attempt act s = SessionM.attempt (fun _ => (o, t)) s := by
    simp only [SessionM.attempt, h]
  cases hends with
  | value h => exact .of_run hz (hattempt hrun) (hattempt hrun') (.value (.some h))
  | failure e => exact .of_run hz (hattempt hrun) (hattempt hrun') (.value .none)
  | returning htarget hv => exact .of_run hz (hattempt hrun) (hattempt hrun') (.value .none)
  | exhausted => exact .of_run hz (hattempt hrun) (hattempt hrun') .exhausted

end Runs

/-! ## Looking only -/

/-- The actions leave the sides as they are, and have related values or fail alike. -/
def Looks (w : Twins) (x y : SessionM α) (P : α → α → Prop) : Prop :=
  ∃ o o', x w.left = (o, w.left) ∧ y w.right = (o', w.right) ∧ w.bridge.Ends P o o'

namespace Looks

variable {x y : SessionM α} {a a' : α} {P : α → α → Prop} {P' : β → β → Prop}

theorem pure (h : P a a') : w.Looks (pure a) (pure a') P := ⟨_, _, rfl, rfl, .value h⟩

theorem fail (e : EvalError) : w.Looks (SessionM.fail e) (SessionM.fail e) P :=
  ⟨_, _, rfl, rfl, .failure e⟩

theorem ofExcept {r r' : Except EvalError α}
    (h : (∃ e, r = .error e ∧ r' = .error e) ∨ ∃ a a', r = .ok a ∧ r' = .ok a' ∧ P a a') :
    w.Looks (SessionM.ofExcept r) (SessionM.ofExcept r') P := by
  obtain ⟨e, rfl, rfl⟩ | ⟨a, a', rfl, rfl, h⟩ := h
  · exact fail e
  · exact pure h

/-- A computation that commutes with renaming. -/
theorem computed [Renames α] {b : Bridge} {r r' : Except EvalError α} (h : b.Relates r r') :
    w.Looks (SessionM.ofExcept r) (SessionM.ofExcept r') b.Relates :=
  ofExcept h.of_except

theorem askHeap {ask ask' : Heap → Except EvalError α}
    (h : (∃ e, ask w.left.heap = .error e ∧ ask' w.right.heap = .error e) ∨
      ∃ a a', ask w.left.heap = .ok a ∧ ask' w.right.heap = .ok a' ∧ P a a') :
    w.Looks (SessionM.askHeap ask) (SessionM.askHeap ask') P :=
  ofExcept h

theorem get_bind {f g : Session → SessionM β} (h : w.Looks (f w.left) (g w.right) P') :
    w.Looks (MonadState.get >>= f) (MonadState.get >>= g) P' := h

theorem bind {f g : α → SessionM β} (hx : w.Looks x y P)
    (hf : ∀ a a', P a a' → w.Looks (f a) (g a') P') : w.Looks (x >>= f) (y >>= g) P' := by
  obtain ⟨o, o', hrun, hrun', hends⟩ := hx
  cases hends with
  | value h =>
    obtain ⟨o, o', hnext, hnext', hends⟩ := hf _ _ h
    exact ⟨o, o', (SessionM.bind_run_ok hrun f).trans hnext,
      (SessionM.bind_run_ok hrun' g).trans hnext', hends⟩
  | failure e =>
    exact ⟨_, _, SessionM.bind_run_error hrun f, SessionM.bind_run_error hrun' g, .failure e⟩
  | returning htarget hv =>
    exact ⟨_, _, SessionM.bind_run_error hrun f, SessionM.bind_run_error hrun' g,
      .returning htarget hv⟩
  | exhausted =>
    exact ⟨_, _, SessionM.bind_run_error hrun f, SessionM.bind_run_error hrun' g, .exhausted⟩

theorem ite {p q : Prop} [Decidable p] [Decidable q] {x' y' : SessionM α} (hpq : q ↔ p)
    (hpos : p → w.Looks x y P) (hneg : ¬ p → w.Looks x' y' P) :
    w.Looks (if p then x else x') (if q then y else y') P :=
  rel_ite (R := fun x y => w.Looks x y P) hpq hpos hneg

theorem runs (h : w.Looks x y (R w.bridge)) : w.Runs x y R := by
  obtain ⟨o, o', hrun, hrun', hends⟩ := h
  exact .of_run le_rfl hrun hrun' hends

/-- What comes after a look begins on the same twins. -/
theorem andThen {f g : α → SessionM β} (hx : w.Looks x y P)
    (hf : ∀ a a', P a a' → w.Runs (f a) (g a') S) : w.Runs (x >>= f) (y >>= g) S := by
  obtain ⟨o, o', hrun, hrun', hends⟩ := hx
  cases hends with
  | value h =>
    obtain ⟨z, o, o', hz, hnext, hnext', hends⟩ := hf _ _ h
    exact .of_run hz ((SessionM.bind_run_ok hrun f).trans hnext)
      ((SessionM.bind_run_ok hrun' g).trans hnext') hends
  | failure e =>
    exact .of_run le_rfl (SessionM.bind_run_error hrun f) (SessionM.bind_run_error hrun' g)
      (.failure e)
  | returning htarget hv =>
    exact .of_run le_rfl (SessionM.bind_run_error hrun f) (SessionM.bind_run_error hrun' g)
      (.returning htarget hv)
  | exhausted =>
    exact .of_run le_rfl (SessionM.bind_run_error hrun f) (SessionM.bind_run_error hrun' g)
      .exhausted

end Looks

end Twins

end CallByNeed
