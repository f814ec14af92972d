import CallByNeed.Proofs.Heap.Knots
import CallByNeed.Proofs.Promises
import CallByNeed.Proofs.Returns.Active

/-!
# How knots are tied

What a promise is a promise of changes once, when it is given its value.  So a knot
that was not there before leads through a promise which was given its value, or
made, in the meantime (`Session.Advances.knot`); and giving a promise its value ties
a knot exactly if that value contains the promise (`PromiseStore.knotless_keep_iff`).
Nothing keeps a program from that: a collection that meets such a promise does not
come to an end (`Session.Reachable.collection_ends`).
-/

namespace CallByNeed

/-! ## The first new step -/

section

variable {α : Type} {old all new : α → α → Prop} {a b : α}

/-- A way with some new steps begins with old ones, up to the first new one. -/
theorem reflTransGen_or_new (hstep : ∀ {a b}, all a b → old a b ∨ new a b)
    (h : Relation.ReflTransGen all a b) :
    Relation.ReflTransGen old a b ∨
      ∃ c d, Relation.ReflTransGen old a c ∧ new c d ∧ all c d ∧ Relation.ReflTransGen all d b := by
  induction h using Relation.ReflTransGen.head_induction_on with
  | refl => exact .inl .refl
  | @head a c hac hcb ih =>
    obtain hold | hnew := hstep hac
    · obtain hrest | ⟨d, e, hcd, hrest⟩ := ih
      · exact .inl (.head hold hrest)
      · exact .inr ⟨d, e, .head hold hcd, hrest⟩
    · exact .inr ⟨a, c, .refl, hnew, hac, hcb⟩

theorem transGen_or_new (hstep : ∀ {a b}, all a b → old a b ∨ new a b)
    (h : Relation.TransGen all a b) :
    Relation.TransGen old a b ∨
      ∃ c d, Relation.ReflTransGen old a c ∧ new c d ∧ all c d ∧ Relation.ReflTransGen all d b := by
  obtain ⟨c, hac, hcb⟩ := Relation.TransGen.head'_iff.1 h
  obtain hold | hnew := hstep hac
  · obtain hrest | ⟨d, e, hcd, hrest⟩ := reflTransGen_or_new hstep hcb
    · exact .inl (.head' hold hrest)
    · exact .inr ⟨d, e, .head hold hcd, hrest⟩
  · exact .inr ⟨a, c, .refl, hnew, hac, hcb⟩

end

/-! ## Giving a promise its value -/

/-- What stands directly inside a value is a matter of that value alone, or of the promise that it
    is. -/
theorem Value.Child.of_promise {store : PromiseStore} {v w : Value} (h : Child store v w) :
    (∀ other, Child other v w) ∨
      ∃ q cell, v = .promise q ∧ store.get? q = some cell ∧
        (w = cell.expr ∨ cell.value? = some w) := by
  cases h with
  | formal c harg => exact .inl fun _ => .formal c harg
  | body c => exact .inl fun _ => .body c
  | function c => exact .inl fun _ => .function c
  | argument c harg => exact .inl fun _ => .argument c harg
  | element harg => exact .inl fun _ => .element harg
  | dot harg => exact .inl fun _ => .dot harg
  | ofAttribute vec hentry => exact .inl fun _ => .ofAttribute vec hentry
  | expr hcell => exact .inr ⟨_, _, rfl, hcell, .inl rfl⟩
  | kept hcell hvalue => exact .inr ⟨_, _, rfl, hcell, .inr hvalue⟩

theorem Value.child_promise_iff {store : PromiseStore} {q : PromiseId} {w : Value} :
    Child store (.promise q) w ↔
      ∃ cell, store.get? q = some cell ∧ (w = cell.expr ∨ cell.value? = some w) := by
  constructor
  · intro h
    cases h with
    | expr hcell => exact ⟨_, hcell, .inl rfl⟩
    | kept hcell hvalue => exact ⟨_, hcell, .inr hvalue⟩
  · rintro ⟨cell, hcell, rfl | hvalue⟩
    · exact .expr hcell
    · exact .kept hcell hvalue

/-- Stores in which a value is the same promise agree on what stands directly inside it. -/
theorem Value.Child.congr {store store' : PromiseStore} {v w : Value} (h : Child store v w)
    (hsame : ∀ q, v = .promise q → store'.get? q = store.get? q) : Child store' v w := by
  obtain hall | ⟨q, cell, rfl, hcell, hw⟩ := h.of_promise
  · exact hall store'
  · exact child_promise_iff.2 ⟨cell, (hsame q rfl).trans hcell, hw⟩

namespace PromiseStore

variable {store : PromiseStore} {id p : PromiseId} {expr value v w : Value} {env : EnvId}
  {underEvaluation : Bool}

/-- No promise of the store contains itself. -/
def Knotless (store : PromiseStore) : Prop := ∀ p, ¬ store.Holds p p

/-- When a promise is given its value, that comes to stand inside, and nothing else changes. -/
theorem child_keep (hp : store.get? id = some ⟨expr, .waiting env underEvaluation⟩) :
    Value.Child (store.update id (Promise.keep value)) v w ↔
      Value.Child store v w ∨ v = .promise id ∧ w = value := by
  by_cases hv : v = .promise id
  · subst hv
    rw [Value.child_promise_iff, Value.child_promise_iff, hp, get?_update_self _ hp]
    simp [Promise.keep, Promise.value?, eq_comm]
  · -- only the promise with this id is another one than before
    have hsame (q : PromiseId) (hq : v = .promise q) :
        (store.update id (Promise.keep value)).get? q = store.get? q :=
      get?_update_of_ne _ fun he => hv (he ▸ hq)
    rw [or_iff_left fun h => hv h.1]
    exact ⟨fun h => h.congr fun q hq => (hsame q hq).symm, fun h => h.congr hsame⟩

/-- Giving a promise its value ties a knot exactly if the value contains the promise. -/
theorem knotless_keep_iff (hp : store.get? id = some ⟨expr, .waiting env underEvaluation⟩)
    (hstore : store.Knotless) :
    (store.update id (Promise.keep value)).Knotless ↔ ¬ value.Part store (.promise id) := by
  have hstep {v w : Value} : Value.Child (store.update id (Promise.keep value)) v w →
      Value.Child store v w ∨ v = .promise id ∧ w = value := (child_keep hp).1
  have hmono {v w : Value} (h : v.Part store w) :
      v.Part (store.update id (Promise.keep value)) w :=
    Relation.ReflTransGen.mono (fun _ _ h => (child_keep hp).2 (.inl h)) _ _ h
  constructor
  · intro hknotless hpart
    exact hknotless id (.head' ((child_keep hp).2 (.inr ⟨rfl, rfl⟩)) (hmono hpart))
  · intro hnot p hknot
    obtain hold | ⟨c, d, hpart, ⟨hc, hd⟩, -, hback⟩ := transGen_or_new hstep hknot
    · exact hstore p hold
    · rw [hc] at hpart
      rw [hd] at hback
      -- around from the value to the promise, but no further than to the first arrival there
      obtain hold | ⟨c, d, harrival, ⟨hc, -⟩, -⟩ :=
        reflTransGen_or_new hstep (hback.trans (hmono hpart))
      · exact hnot hold
      · rw [hc] at harrival
        exact hnot harrival

end PromiseStore

/-! ## Evaluation -/

namespace Session

variable {s t : Session} {p q : PromiseId} {v w : Value}

/-- The promise is new, or it waited and has earned this value. -/
def NewInside (s t : Session) (q : PromiseId) (w : Value) : Prop :=
  s.promises.get? q = none ∨ ∃ expr env,
    s.promises.get? q = some ⟨expr, .waiting env false⟩ ∧
    t.promises.get? q = some ⟨expr, .kept w⟩ ∧ s.Earned t q expr env w

/-- A promise keeps its expression, and its value if it has one. -/
theorem Advances.cell (h : s.Advances t) {cell : Promise}
    (hcell : s.promises.get? q = some cell) :
    ∃ now, t.promises.get? q = some now ∧ now.expr = cell.expr ∧
      (∀ w, cell.value? = some w → now.value? = some w) ∧
      ∀ w, now.value? = some w → cell.value? = some w ∨ s.NewInside t q w := by
  obtain ⟨expr, ⟨env, _ | _⟩ | value⟩ := cell
  · obtain hnow | ⟨value, hnow, hearned⟩ := h.waiting hcell
    · exact ⟨_, hnow, rfl, fun _ hw => hw, fun _ hw => .inl hw⟩
    · refine ⟨_, hnow, rfl, (fun _ hw => nomatch hw), fun w hw => .inr (.inr ?_)⟩
      obtain rfl := Option.some.inj hw
      exact ⟨expr, env, hcell, hnow, hearned⟩
  · exact ⟨_, h.marked hcell, rfl, fun _ hw => hw, fun _ hw => .inl hw⟩
  · exact ⟨_, h.kept.kept _ _ _ hcell, rfl, fun _ hw => hw, fun _ hw => .inl hw⟩

theorem Advances.child (h : s.Advances t) (hchild : Value.Child s.promises v w) :
    Value.Child t.promises v w := by
  obtain hsame | ⟨q, cell, rfl, hcell, hw⟩ := hchild.of_promise
  · exact hsame _
  · obtain ⟨now, hnow, hexpr, hvalue, -⟩ := h.cell hcell
    obtain rfl | hw := hw
    · exact hexpr ▸ .expr hnow
    · exact .kept hnow (hvalue w hw)

theorem Advances.child_or_new (h : s.Advances t) (hchild : Value.Child t.promises v w) :
    Value.Child s.promises v w ∨ ∃ q, v = .promise q ∧ s.NewInside t q w := by
  obtain hsame | ⟨q, now, rfl, hnow, hw⟩ := hchild.of_promise
  · exact .inl (hsame _)
  -- a promise that is new has everything in it new, an old one at most its value
  · cases hcell : s.promises.get? q with
    | none => exact .inr ⟨q, rfl, .inl hcell⟩
    | some cell =>
      obtain ⟨now', hnow', hexpr, -, hvalue⟩ := h.cell hcell
      obtain rfl : now = now' := Option.some.inj (hnow.symm.trans hnow')
      obtain rfl | hw := hw
      · exact .inl (hexpr ▸ .expr hcell)
      · obtain hold | hnew := hvalue w hw
        · exact .inl (.kept hcell hold)
        · exact .inr ⟨q, rfl, hnew⟩

/-- A knot that was not there before leads through a promise that was made, or has earned its value,
    in the meantime. -/
theorem Advances.knot (h : s.Advances t) (hknot : t.promises.Holds p p) :
    s.promises.Holds p p ∨ ∃ q w, t.promises.Holds p q ∧ s.NewInside t q w ∧
      w.Part t.promises (.promise q) := by
  obtain hold | ⟨_, w, hpart, ⟨q, rfl, hnew⟩, -, hback⟩ := transGen_or_new h.child_or_new hknot
  · exact .inl hold
  · have hthere : (Value.promise p).Part t.promises (.promise q) :=
      Relation.ReflTransGen.mono (fun _ _ => h.child) _ _ hpart
    exact .inr ⟨q, w, hknot.trans_left hthere, hnew, hback.trans hthere⟩

/-- In every reachable session and for every start, a collection is carried out exactly if nothing
    that it meets has a knot inside.  That is because the links of a value are found, with any amount
    of fuel, exactly if there is no knot inside; marking needs no more rounds than there are slots.
    A knot comes about in an evaluation only where a promise is made, or waits and is given a value
    that contains it; and if there are no knots, giving a promise its value ties one exactly if the
    value contains the promise. -/
theorem Reachable.collection_ends {options : Options} {kernels : KernelTable}
    (h : s.Reachable options kernels) :
    (∀ roots values, (∃ freed heap, s.heap.collect s.promises roots values = some (freed, heap)) ↔
      (∀ v ∈ values, v.Knotless s.promises) ∧
      ∀ id f, s.heap.frame? id = some f →
        s.heap.Reaches s.promises (Heap.StartsFrom s.promises roots values) id →
        f.Knotless s.promises) ∧
    (∀ v : Value, (∃ fuel ids, v.linksBy (s.promises.linksWithin fuel) = some ids) ↔
      v.Knotless s.promises) ∧
    (∀ roots rounds, s.heap.slots.size < rounds →
      Heap.markRounds s.promises rounds roots s.heap = s.heap.mark s.promises roots) ∧
    (∀ fuel (entry : Evaluator.Entry) p, (entry.run (evaluator fuel) s).2.promises.Holds p p →
      s.promises.Holds p p ∨ ∃ q w, (entry.run (evaluator fuel) s).2.promises.Holds p q ∧
        s.NewInside (entry.run (evaluator fuel) s).2 q w ∧
        w.Part (entry.run (evaluator fuel) s).2.promises (.promise q)) ∧
    ∀ id expr env marked value, s.promises.get? id = some ⟨expr, .waiting env marked⟩ →
      s.promises.Knotless →
      ((s.keep id value).promises.Knotless ↔ ¬ value.Part s.promises (.promise id)) := by
  have hwf := h.staffed.wellFormed
  refine ⟨fun roots values => hwf.exists_collect_iff,
    fun v => Value.knotless_iff_exists_linksBy.symm,
    fun roots rounds hrounds => (Heap.mark_eq_markRounds hrounds).symm,
    fun fuel entry p hknot => (Evaluator.advances_entry fuel entry s).knot hknot,
    fun id expr env marked value hp hknotless => PromiseStore.knotless_keep_iff hp hknotless⟩

/-- A promise of a variable that is bound to a list with that promise in it.  Once the promise has its
    value it contains itself, and collections are not carried out any more. -/
theorem Reachable.collection_ends_knotted :
    let x : Symbol := ⟨"x"⟩
    let value : Value := .list [.untagged (.promise ⟨0⟩)]
    ∃ s : Session, s.Reachable {} .empty ∧
      s.promises.get? ⟨0⟩ = some ⟨.symbol x, .kept value⟩ ∧ s.promises.Holds ⟨0⟩ ⟨0⟩ ∧
      ∀ freed heap, s.heap.collect s.promises s.rootEnvs s.rootValues ≠ some (freed, heap) := by
  intro x value
  let s₀ := Session.initial {} .empty
  let promise : Promise := ⟨.symbol x, .waiting s₀.globalEnv false⟩
  let s₁ : Session := { s₀ with promises := (s₀.promises.add promise).2 }
  let s₂ := s₁.bound s₀.globalEnv x ⟨value, false⟩
  have hbound : s₂.Reachable {} .empty :=
    .host (.host .initial (.move (.promise promise rfl))) (.move (.write x ⟨value, false⟩ rfl))
  let s := (evaluator 2 (.evaluate (.promise ⟨0⟩) s₀.globalEnv) s₂).2
  have hs : s.Reachable {} .empty := hbound.ran 2 _
  have hp : s.promises.get? ⟨0⟩ = some ⟨.symbol x, .kept value⟩ := rfl
  have hknot : s.promises.Holds ⟨0⟩ ⟨0⟩ :=
    .tail (.single (.kept hp rfl)) (.element List.mem_cons_self)
  refine ⟨s, hs, hp, hknot, fun freed heap hcollect => ?_⟩
  obtain ⟨-, hframes⟩ := (hs.collection_ends.1 _ _).1 ⟨freed, heap, hcollect⟩
  obtain ⟨f, hf, hx⟩ : ∃ f, s.heap.frame? s.globalEnv = some f ∧
      (x, ⟨value, false⟩) ∈ f.bindings := ⟨_, rfl, List.mem_cons_self⟩
  have hstart : Heap.StartsFrom s.promises s.rootEnvs s.rootValues s.globalEnv :=
    .inl (.tail _ List.mem_cons_self)
  exact hframes s.globalEnv f hf (.start hstart) _ hx ⟨0⟩ (.single (.element List.mem_cons_self))
    hknot

end Session

end CallByNeed
