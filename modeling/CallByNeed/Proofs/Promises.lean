import CallByNeed.Proofs.Resolution

/-!
# A promise is evaluated to a value once

Evaluation takes a promise from waiting to kept, and never back
(`Session.Advances`).  It is kept with the value that an evaluation of its own
expression in its own environment has just come to (`Session.Earned`), and a
promise that is under evaluation stays so until that evaluation is over.

This is a contract of evaluation (`Contract.advances`).  Its invariant may be
anything about promises that lasts: that one has a certain value, which then holds
in every later session, or that one is under evaluation, which then holds in every
session that its evaluation passes through.
-/

namespace CallByNeed

namespace PromiseStore

variable {store : PromiseStore} {id : PromiseId} {p : Promise}

theorem get?_add_of_some (new : Promise) (h : store.get? id = some p) :
    (store.add new).2.get? id = some p := by
  obtain ⟨hindex, -⟩ := Array.getElem?_eq_some_iff.1 h
  have hne : id.index ≠ store.cells.size := Nat.ne_of_lt hindex
  simpa [add, get?, Array.getElem?_push, hne] using h

end PromiseStore

namespace Session

variable {s t u : Session} {id : PromiseId} {expr value : Value} {env : EnvId}

/-! ## How promises change -/

/-- Between two sessions the promise was waiting, an evaluation of its expression in its environment
    gave the value, and it was kept with that at once. -/
def Earned (s t : Session) (id : PromiseId) (expr : Value) (env : EnvId) (value : Value) : Prop :=
  ∃ fuel before after,
    s.KeepsPromises before ∧
    before.promises.get? id = some ⟨expr, .waiting env false⟩ ∧
    (evaluator fuel).evaluate expr env (before.mark id true) = (.ok value, after) ∧
    ((after.mark id false).keep id value).KeepsPromises t

/-- What may have become of promises: one with its value has the same value still, one under
    evaluation is so still, and one that was waiting is as it was or has earned its value. -/
structure Advances (s t : Session) : Prop where
  kept : s.KeepsPromises t
  marked : ∀ {id expr env}, s.promises.get? id = some ⟨expr, .waiting env true⟩ →
    t.promises.get? id = some ⟨expr, .waiting env true⟩
  waiting : ∀ {id expr env}, s.promises.get? id = some ⟨expr, .waiting env false⟩ →
    t.promises.get? id = some ⟨expr, .waiting env false⟩ ∨
      ∃ value, t.promises.get? id = some ⟨expr, .kept value⟩ ∧ s.Earned t id expr env value

theorem Earned.within {s' t' : Session} (hs : s.KeepsPromises s')
    (h : s'.Earned t' id expr env value) (ht : t'.KeepsPromises t) :
    s.Earned t id expr env value := by
  obtain ⟨fuel, before, after, hbefore, hp, heval, hafter⟩ := h
  exact ⟨fuel, before, after, hs.trans hbefore, hp, heval, hafter.trans ht⟩

namespace Advances

theorem of_promises (h : t.promises = s.promises) : s.Advances t where
  kept := .of_promises h
  marked hp := by rwa [h]
  waiting hp := .inl (by rwa [h])

theorem trans (h₁ : s.Advances t) (h₂ : t.Advances u) : s.Advances u where
  kept := h₁.kept.trans h₂.kept
  marked hp := h₂.marked (h₁.marked hp)
  waiting {id expr env} hp := by
    rcases h₁.waiting hp with hp | ⟨value, hp, hearned⟩
    · refine (h₂.waiting hp).imp_right fun ⟨value, hvalue, hearned⟩ => ?_
      exact ⟨value, hvalue, hearned.within h₁.kept (.of_promises rfl)⟩
    · refine .inr ⟨value, h₂.kept.kept id expr value hp, ?_⟩
      exact hearned.within (.of_promises rfl) h₂.kept

theorem of_move (h : s.Move t) : s.Advances t := by
  cases h with
  | promise p _ =>
    exact ⟨.of_move (.promise p ‹_›), PromiseStore.get?_add_of_some p,
      fun hp => .inl (PromiseStore.get?_add_of_some p hp)⟩
  | _ => exact .of_promises rfl

/-- An evaluation of a promise that is broken off leaves the promise as it was. -/
theorem unmark (hp : s.promises.get? id = some ⟨expr, .waiting env false⟩)
    (h : (s.mark id true).Advances t) : s.Advances (t.mark id false) := by
  have hmark : s.KeepsPromises (s.mark id true) := (KeepsPromises.of_promises rfl).update _ hp
  have hmarked := h.marked (PromiseStore.get?_update_self (Promise.mark true) hp)
  have hunmark : t.KeepsPromises (t.mark id false) :=
    (KeepsPromises.of_promises rfl).update _ hmarked
  have hself : (t.mark id false).promises.get? id = some ⟨expr, .waiting env false⟩ :=
    PromiseStore.get?_update_self (Promise.mark false) hmarked
  -- the marks touch this promise only, so of all others the evaluation itself tells
  have hbefore {other : PromiseId} (hne : other ≠ id) :
      (s.mark id true).promises.get? other = s.promises.get? other :=
    PromiseStore.get?_update_of_ne _ hne
  have hafter {other : PromiseId} (hne : other ≠ id) :
      (t.mark id false).promises.get? other = t.promises.get? other :=
    PromiseStore.get?_update_of_ne _ hne
  refine ⟨hmark.trans (h.kept.trans hunmark), fun {other _ _} hother => ?_,
    fun {other _ _} hother => ?_⟩
  · have hne := PromiseStore.ne_of_get? hp hother (by simp)
    rw [hafter hne]
    exact h.marked ((hbefore hne).trans hother)
  · by_cases hne : other = id
    · subst hne
      rw [hp] at hother
      cases hother
      exact .inl hself
    · rw [hafter hne]
      refine (h.waiting ((hbefore hne).trans hother)).imp_right fun ⟨value, hvalue, hearned⟩ => ?_
      exact ⟨value, hvalue, hearned.within hmark hunmark⟩

/-- An evaluation of a promise that comes to a value is what earns it. -/
theorem keep {fuel : Nat} (hp : s.promises.get? id = some ⟨expr, .waiting env false⟩)
    (heval : (evaluator fuel).evaluate expr env (s.mark id true) = (.ok value, t))
    (h : (s.mark id true).Advances t) : s.Advances ((t.mark id false).keep id value) := by
  have hunmark := h.unmark hp
  have hwaiting : (t.mark id false).promises.get? id = some ⟨expr, .waiting env false⟩ :=
    PromiseStore.get?_update_self (Promise.mark false)
      (h.marked (PromiseStore.get?_update_self (Promise.mark true) hp))
  have hkeep : (t.mark id false).KeepsPromises ((t.mark id false).keep id value) :=
    (KeepsPromises.of_promises rfl).update _ hwaiting
  have hself : ((t.mark id false).keep id value).promises.get? id = some ⟨expr, .kept value⟩ :=
    PromiseStore.get?_update_self (Promise.keep value) hwaiting
  have hafter {other : PromiseId} (hne : other ≠ id) :
      ((t.mark id false).keep id value).promises.get? other =
        (t.mark id false).promises.get? other :=
    PromiseStore.get?_update_of_ne _ hne
  refine ⟨hunmark.kept.trans hkeep, fun {other _ _} hother => ?_, fun {other _ _} hother => ?_⟩
  · have hne := PromiseStore.ne_of_get? hp hother (by simp)
    rw [hafter hne]
    exact hunmark.marked hother
  · -- this promise earned its value by the evaluation, the others what they did during it
    by_cases hne : other = id
    · subst hne
      rw [hp] at hother
      cases hother
      exact .inr ⟨value, hself, fuel, s, t, .of_promises rfl, hp, heval, .of_promises rfl⟩
    · rw [hafter hne]
      refine (hunmark.waiting hother).imp_right fun ⟨value, hvalue, hearned⟩ => ?_
      exact ⟨value, hvalue, hearned.within (.of_promises rfl) hkeep⟩

end Advances

end Session

/-! ## The contract -/

namespace Contract

/-- Promises advance, and something about promises that lasts is true. -/
def advances (lasting : PromiseStore → Prop)
    (lasts : ∀ {s t : Session}, lasting s.promises → s.Advances t → lasting t.promises)
    (marks : ∀ {s : Session} {id expr env}, lasting s.promises →
      s.promises.get? id = some ⟨expr, .waiting env false⟩ → lasting (s.mark id true).promises) :
    Contract where
  inv s := lasting s.promises
  rel := Session.Advances
  raises _ _ := True
  lenient := False
  gives expr env s value t := ∃ fuel, (evaluator fuel).evaluate expr env s = (.ok value, t)
  gives_evaluator heval := ⟨_, heval⟩
  refl _ := .of_promises rfl
  trans := .trans
  inv_of_rel := lasts
  raises_of_rel _ _ _ := trivial
  move _ hmove := .of_move hmove
  raises_failure _ _ := trivial
  raises_overflow _ _ := trivial
  raises_exhausted _ := trivial
  raises_returning _ _ _ := trivial
  inv_mark := marks
  unmark _ hp hrel := hrel.unmark hp
  keep _ _ hp hgives hrel := hgives.elim fun _ heval => hrel.keep hp heval
  raises_unmark _ _ _ := trivial
  inv_enter _ _ hinv _ _ := hinv
  leave i _ _ hrel :=
    .trans (.of_promises (t := Session.enter _ i) rfl) (hrel.trans (.of_promises rfl))
  raises_leave _ _ _ _ _ := trivial

variable {lasting : PromiseStore → Prop}
  {lasts : ∀ {s t : Session}, lasting s.promises → s.Advances t → lasting t.promises}
  {marks : ∀ {s : Session} {id expr env}, lasting s.promises →
    s.promises.get? id = some ⟨expr, .waiting env false⟩ → lasting (s.mark id true).promises}

theorem advances_closed : (advances lasting lasts marks).Closed :=
  LoopBlind.closed fun _ _ _ _ => .of_promises rfl

end Contract

namespace Evaluator

/-- Evaluations let promises advance. -/
theorem advances_entry (fuel : Nat) (entry : Entry) (s : Session) :
    s.Advances (entry.run (evaluator fuel) s).2 :=
  let C := Contract.advances (fun _ => True) (fun _ _ => trivial) fun _ _ => trivial
  (C.agree_entry (Contract.advances_closed.agree_evaluator fuel) entry s trivial).rel

end Evaluator

namespace Session

/-! ## A value that is known -/

/-- A session that comes about from the first one by evaluations, in the middle of one, or by what a
    host does in between. -/
inductive Leads (s : Session) : Session → Prop where
  | refl : Leads s s
  | ran {t : Session} (h : Leads s t) (fuel : Nat) (task : Task) : Leads s (evaluator fuel task t).2
  | during {t u : Session} (h : Leads s t) (fuel : Nat) {task inner : Task}
      (hinner : Evaluator.Consults (fun ev => ev.step task) (evaluator fuel) t inner u) : Leads s u
  | host {t u : Session} (h : Leads s t) (hstep : t.HostStep u) : Leads s u

theorem HostStep.advances {s t : Session} (h : s.HostStep t) : s.Advances t := by
  cases h with
  | move h => exact .of_move h
  | _ => exact .of_promises rfl

variable {s t u : Session} {id : PromiseId} {expr value : Value} {env : EnvId}

/-- A promise that has its value has it in every session that comes later. -/
theorem Leads.kept (h : s.Leads t) (hp : s.promises.get? id = some ⟨expr, .kept value⟩) :
    t.promises.get? id = some ⟨expr, .kept value⟩ := by
  -- that the promise has its value is an invariant of every way to come to a later session
  let C := Contract.advances (fun store => store.get? id = some ⟨expr, .kept value⟩)
    (fun hp hrel => hrel.kept.kept _ _ _ hp) fun hp hother =>
      (PromiseStore.get?_update_of_ne _ (PromiseStore.ne_of_get? hother hp (by simp))).trans hp
  have hC : C.Closed := Contract.advances_closed
  suffices C.inv t from this
  induction h with
  | refl => exact hp
  | ran _ fuel task ih => exact C.inv_of_rel ih (hC.agree_evaluator fuel task _ ih).rel
  | during _ fuel hinner ih =>
    exact Contract.inv_of_consults (fun h => h) (fun hev => hC.agree_step hev _)
      (hC.agree_evaluator fuel) ih hinner
  | host _ hstep ih => exact C.inv_of_rel ih hstep.advances

/-! ## A promise that is under evaluation -/

end Session

end CallByNeed
