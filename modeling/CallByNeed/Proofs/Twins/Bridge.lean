import CallByNeed.Proofs.Twins.Renaming
import Mathlib.Data.List.Forall2
import Mathlib.Order.Basic

/-!
# Bridges between sessions

A bridge pairs environments of one session with environments of another one, no
two with the same, and says which promises the two sessions have in common
(`Bridge`).  It relates two things if the second one is the first one renamed,
and nothing in the first one refers outside of the bridge (`Bridge.Relates`): any
two renamings that do the same on the bridge make the same of it.  So a function
that commutes with renaming leads from related things to related ones
(`Relates.map`), and a longer bridge relates whatever a shorter one did
(`Relates.mono`).

No builtin that looks into the session is related to anything, since renamings
may exchange those; and over a bridge without promises no promise is.
-/

namespace CallByNeed

/-- Environments of a session with their counterparts in another one, and promises that are in
    both. -/
structure Bridge where
  env : EnvId → Option EnvId
  injective : ∀ {id other target}, env id = some target → env other = some target → id = other
  promises : PromiseId → Prop

namespace Bridge

/-- The second bridge relates whatever the first one does. -/
structure Extends (b c : Bridge) : Prop where
  env : ∀ {id target}, b.env id = some target → c.env id = some target
  promises : ∀ {p}, b.promises p → c.promises p

instance : Preorder Bridge where
  le := Extends
  le_refl _ := ⟨id, id⟩
  le_trans _ _ _ hbc hcd := ⟨fun h => hcd.env (hbc.env h), fun h => hcd.promises (hbc.promises h)⟩

variable {α β γ : Type} [Renames α] [Renames β] [Renames γ] {b c : Bridge} {a a' : α}

/-- The bridge without its promises. -/
def bare (b : Bridge) : Bridge := { b with promises := fun _ => False }

theorem bare_le (b : Bridge) : b.bare ≤ b := ⟨id, False.elim⟩

theorem bare_mono (h : b ≤ c) : b.bare ≤ c.bare := ⟨h.env, id⟩

/-- Every environment renamed to its counterpart. -/
def across (b : Bridge) : Renaming := ⟨fun id => (b.env id).getD id, id, id⟩

theorem env_across {id target : EnvId} (h : b.env id = some target) :
    b.across.env id = target := by
  simp [across, h]

/-- Both renamings do the same on the bridge. -/
structure Agree (b : Bridge) (r q : Renaming) : Prop where
  env : ∀ {id target}, b.env id = some target → r.env id = q.env id
  promise : ∀ {p}, b.promises p → r.promise p = q.promise p

/-- Nothing in there refers outside of the bridge. -/
def Within (b : Bridge) (a : α) : Prop := ∀ r q, b.Agree r q → rename r a = rename q a

theorem Within.mono (h : b ≤ c) (ha : b.Within a) : c.Within a :=
  fun r q hrq => ha r q ⟨fun hid => hrq.env (h.env hid), fun hp => hrq.promise (h.promises hp)⟩

/-- The bridge with one more pair, of environments that it has not. -/
def paired (b : Bridge) (id target : EnvId) (hnew : ∀ other, b.env other ≠ some target) :
    Bridge where
  env other := if other = id then some target else b.env other
  injective {first second found} hfirst hsecond := by
    split at hfirst <;> split at hsecond
    · simp_all
    · cases hfirst
      exact absurd hsecond (hnew _)
    · cases hsecond
      exact absurd hfirst (hnew _)
    · exact b.injective hfirst hsecond
  promises := b.promises

theorem le_paired {id target : EnvId} {hnew : ∀ other, b.env other ≠ some target}
    (hid : b.env id = none) : b ≤ b.paired id target hnew := by
  refine ⟨fun {other found} h => ?_, fun h => h⟩
  have hne : other ≠ id := fun he => by
    rw [he, hid] at h
    cases h
  simp [paired, hne, h]

/-- The bridge with one more promise. -/
def holding (b : Bridge) (p : PromiseId) : Bridge :=
  { b with promises := fun q => q = p ∨ b.promises q }

theorem le_holding (p : PromiseId) : b ≤ b.holding p := ⟨id, .inr⟩

/-- The second is the first one seen from the other side of the bridge. -/
structure Relates (b : Bridge) (a a' : α) : Prop where
  within : b.Within a
  image : a' = rename b.across a

/-- Related, and without promises. -/
abbrev Clean (b : Bridge) (a a' : α) : Prop := b.bare.Relates a a'

namespace Relates

theorem mono (h : b ≤ c) (ha : b.Relates a a') : c.Relates a a' := by
  refine ⟨ha.within.mono h, ha.image.trans (ha.within _ _ ⟨fun hid => ?_, fun _ => rfl⟩)⟩
  rw [env_across hid, env_across (h.env hid)]

theorem of_clean (ha : b.Clean a a') : b.Relates a a' := ha.mono b.bare_le

theorem clean (ha : b.Relates a a') (hbare : b.bare.Within a) : b.Clean a a' :=
  ⟨hbare, ha.image⟩

theorem map {f : α → β} (hf : ∀ r a, f (rename r a) = rename r (f a)) (ha : b.Relates a a') :
    b.Relates (f a) (f a') := by
  refine ⟨fun r q hrq => ?_, ?_⟩
  · rw [← hf, ← hf, ha.within r q hrq]
  · rw [ha.image, hf]

theorem map₂ {f : α → β → γ} (hf : ∀ r a e, f (rename r a) (rename r e) = rename r (f a e))
    {e e' : β} (ha : b.Relates a a') (he : b.Relates e e') : b.Relates (f a e) (f a' e') := by
  refine ⟨fun r q hrq => ?_, ?_⟩
  · rw [← hf, ← hf, ha.within r q hrq, he.within r q hrq]
  · rw [ha.image, he.image, hf]

/-- What renaming does not change is the same on both sides. -/
theorem same {δ : Type} {f : α → δ} (hf : ∀ r a, f (rename r a) = f a) (ha : b.Relates a a') :
    f a' = f a := by
  rw [ha.image, hf]

end Relates

/-- Whatever is within the bridge has a counterpart. -/
theorem Within.relates (ha : b.Within a) : b.Relates a (rename b.across a) := ⟨ha, rfl⟩

/-- What is wrapped is related exactly to what is wrapped in the same way. -/
theorem relates_wrapped {f : α → β} (hf : ∀ r a, rename r (f a) = f (rename r a))
    (hinj : Function.Injective f) {x : β} :
    b.Relates (f a) x ↔ ∃ a', x = f a' ∧ b.Relates a a' := by
  constructor
  · intro h
    refine ⟨rename b.across a, h.image.trans (hf _ _), fun r q hrq => hinj ?_, rfl⟩
    rw [← hf, ← hf, h.within r q hrq]
  · rintro ⟨a', rfl, ha⟩
    exact ha.map fun r a => (hf r a).symm

/-- What renaming does not change is related to itself. -/
theorem relates_of_fixed (h : ∀ r, rename r a = a) : b.Relates a a :=
  ⟨fun r q _ => (h r).trans (h q).symm, (h _).symm⟩

/-! ## Lists and options -/

theorem relates_nil : b.Relates ([] : List α) [] := relates_of_fixed fun _ => rfl

theorem relates_cons {l l' : List α} :
    b.Relates (a :: l) (a' :: l') ↔ b.Relates a a' ∧ b.Relates l l' := by
  constructor
  · intro h
    have himage := List.cons_eq_cons.1 h.image
    exact ⟨⟨fun r q hrq => (List.cons_eq_cons.1 (h.within r q hrq)).1, himage.1⟩,
      fun r q hrq => (List.cons_eq_cons.1 (h.within r q hrq)).2, himage.2⟩
  · rintro ⟨ha, hl⟩
    exact ha.map₂ (fun _ _ _ => rfl) hl

theorem Relates.of_nil {l : List α} (h : b.Relates ([] : List α) l) : l = [] := h.image

theorem Relates.of_cons {l x : List α} (h : b.Relates (a :: l) x) :
    ∃ a' l', x = a' :: l' ∧ b.Relates a a' ∧ b.Relates l l' := by
  obtain rfl := h.image
  exact ⟨_, _, rfl, relates_cons.1 h⟩

theorem Relates.append {l l' k k' : List α} (hl : b.Relates l l') (hk : b.Relates k k') :
    b.Relates (l ++ k) (l' ++ k') :=
  hl.map₂ (fun _ _ _ => (Renaming.rename_append _ _).symm) hk

/-- Lists are related if they are so element by element. -/
theorem relates_iff_forall₂ {l l' : List α} : b.Relates l l' ↔ List.Forall₂ b.Relates l l' := by
  constructor
  · intro h
    induction l generalizing l' with
    | nil =>
      rw [h.of_nil]
      exact .nil
    | cons a rest ih =>
      obtain ⟨a', rest', rfl, ha, hrest⟩ := h.of_cons
      exact .cons ha (ih hrest)
  · intro h
    induction h with
    | nil => exact relates_nil
    | cons ha _ ih => exact relates_cons.2 ⟨ha, ih⟩

theorem relates_none : b.Relates (none : Option α) none := relates_of_fixed fun _ => rfl

theorem Relates.of_none {x : Option α} (h : b.Relates none x) : x = none := h.image

theorem relates_some {x : Option α} :
    b.Relates (some a) x ↔ ∃ a', x = some a' ∧ b.Relates a a' :=
  relates_wrapped (fun _ _ => rfl) fun _ _ => Option.some.inj

/-- Of related options both are there, or neither is. -/
theorem Relates.option_rel {x x' : Option α} (h : b.Relates x x') :
    Option.Rel b.Relates x x' := by
  cases x with
  | none =>
    rw [h.of_none]
    exact .none
  | some a =>
    obtain ⟨a', rfl, ha⟩ := relates_some.1 h
    exact .some ha

/-- A list is within a bridge if its elements are. -/
theorem within_list {l : List α} : b.Within l ↔ ∀ a ∈ l, b.Within a := by
  constructor
  · exact fun h a ha r q hrq => List.map_inj_left.1 (h r q hrq) a ha
  · exact fun h r q hrq => List.map_inj_left.2 fun a ha => h a ha r q hrq

theorem relates_pair {κ : Type} {k k' : κ} :
    b.Relates (k, a) (k', a') ↔ k' = k ∧ b.Relates a a' := by
  constructor
  · intro h
    exact ⟨congrArg Prod.fst h.image, fun r q hrq => congrArg Prod.snd (h.within r q hrq),
      congrArg Prod.snd h.image⟩
  · rintro ⟨rfl, h⟩
    exact h.map fun _ _ => rfl

/-- A computation that fails does so on both sides. -/
theorem Relates.of_except {ε : Type} {x x' : Except ε α} (h : b.Relates x x') :
    (∃ e, x = .error e ∧ x' = .error e) ∨ ∃ a a', x = .ok a ∧ x' = .ok a' ∧ b.Relates a a' := by
  cases x with
  | error e => exact .inl ⟨e, rfl, h.image⟩
  | ok a =>
    refine .inr ⟨a, _, rfl, h.image, fun r q hrq => ?_, rfl⟩
    exact Except.ok.inj (h.within r q hrq)

/-! ## References -/

theorem relates_env {id target : EnvId} : b.Relates id target ↔ b.env id = some target := by
  constructor
  · intro h
    cases hid : b.env id with
    | some other =>
      have himage := h.image
      rw [show rename b.across id = other from env_across hid] at himage
      rw [himage]
    | none =>
      -- renamings that differ at `id` only tell that it is outside of the bridge
      let r (target : EnvId) : Renaming :=
        ⟨fun other => if other = id then target else other, fun p => p, fun q => q⟩
      have hsame := h.within (r ⟨0, 0⟩) (r ⟨1, 0⟩) ⟨fun {other _} hother => ?_, fun _ => rfl⟩
      · simp [r, rename] at hsame
      · have hne : other ≠ id := by
          rintro rfl
          rw [hid] at hother
          cases hother
        simp [r, hne]
  · intro h
    exact ⟨fun r q hrq => hrq.env h, (env_across h).symm⟩

theorem clean_env {id target : EnvId} : b.Clean id target ↔ b.Relates id target :=
  Iff.trans (relates_env (b := b.bare)) (relates_env (b := b)).symm

theorem relates_promise {p p' : PromiseId} : b.Relates p p' ↔ b.promises p ∧ p' = p := by
  constructor
  · intro h
    refine ⟨Classical.byContradiction fun hp => ?_, h.image⟩
    let r (target : PromiseId) : Renaming :=
      ⟨fun id => id, fun other => if other = p then target else other, fun q => q⟩
    have hsame := h.within (r ⟨0⟩) (r ⟨1⟩) ⟨fun _ => rfl, fun {other} hother => ?_⟩
    · simp [r, rename] at hsame
    · have hne : other ≠ p := fun he => hp (he ▸ hother)
      simp [r, hne]
  · rintro ⟨hp, rfl⟩
    exact ⟨fun r q hrq => hrq.promise hp, rfl⟩

/-! ## Values -/

section

variable {v v' : Value} {name : Symbol}

@[simp] theorem relates_null : b.Relates .null v' ↔ v' = .null :=
  ⟨fun h => h.image, fun h => by rw [h]; exact relates_of_fixed fun _ => rfl⟩

@[simp] theorem relates_symbol : b.Relates (.symbol name) v' ↔ v' = .symbol name :=
  ⟨fun h => h.image, fun h => by rw [h]; exact relates_of_fixed fun _ => rfl⟩

theorem relates_missingArg : b.Relates Value.missingArg Value.missingArg := relates_symbol.2 rfl

theorem relates_vector {x : Vec} :
    b.Relates (.vector x) v' ↔ ∃ x', v' = .vector x' ∧ b.Relates x x' :=
  relates_wrapped (fun _ => Renaming.rename_vector) fun _ _ => Value.vector.inj

theorem relates_call {c : Call} :
    b.Relates (.call c) v' ↔ ∃ c', v' = .call c' ∧ b.Relates c c' :=
  relates_wrapped (fun _ => Renaming.rename_call) fun _ _ => Value.call.inj

theorem relates_list {args : ArgList} :
    b.Relates (.list args) v' ↔ ∃ args', v' = .list args' ∧ b.Relates args args' :=
  relates_wrapped (fun _ => Renaming.rename_listValue) fun _ _ => Value.list.inj

theorem relates_dots {args : ArgList} :
    b.Relates (.dots args) v' ↔ ∃ args', v' = .dots args' ∧ b.Relates args args' :=
  relates_wrapped (fun _ => Renaming.rename_dots) fun _ _ => Value.dots.inj

theorem relates_closure {c : Closure} :
    b.Relates (.closure c) v' ↔ ∃ c', v' = .closure c' ∧ b.Relates c c' :=
  relates_wrapped (fun _ => Renaming.rename_closure) fun _ _ => Value.closure.inj

theorem relates_environment {id : EnvId} :
    b.Relates (.environment id) v' ↔ ∃ id', v' = .environment id' ∧ b.Relates id id' :=
  relates_wrapped (fun _ => Renaming.rename_environment) fun _ _ => Value.environment.inj

theorem relates_promiseValue {p : PromiseId} :
    b.Relates (.promise p) v' ↔ v' = .promise p ∧ b.promises p := by
  rw [relates_wrapped (fun _ => Renaming.rename_promise) fun _ _ => Value.promise.inj]
  constructor
  · rintro ⟨p', rfl, hp⟩
    obtain ⟨hp, rfl⟩ := relates_promise.1 hp
    exact ⟨rfl, hp⟩
  · rintro ⟨rfl, hp⟩
    exact ⟨p, rfl, relates_promise.2 ⟨hp, rfl⟩⟩

/-- A builtin is related to itself, unless it looks into the session. -/
theorem relates_builtin {identity : Identity} {f : Builtin} :
    b.Relates (.builtin identity f) v' ↔
      v' = .builtin identity f ∧ ∀ query, f ≠ .eager (.introspect query) := by
  constructor
  · intro h
    have hquiet (query : Introspection) : f ≠ .eager (.introspect query) := by
      rintro rfl
      -- two renamings that differ in nothing but the query they put in would have to agree
      let r (query : Introspection) : Renaming := ⟨fun id => id, fun p => p, fun _ => query⟩
      have hsame := h.within (r .depth) (r .frame) ⟨fun _ => rfl, fun _ => rfl⟩
      simp [r, Builtin.exchange] at hsame
    refine ⟨h.image.trans ?_, hquiet⟩
    rw [Renaming.rename_builtin, Builtin.exchange_of_quiet hquiet]
  · rintro ⟨rfl, hquiet⟩
    exact relates_of_fixed fun r => congrArg _ (Builtin.exchange_of_quiet hquiet)

/-- Values of the same kind with related parts. -/
inductive Alike (b : Bridge) : Value → Value → Prop where
  | null : Alike b .null .null
  | symbol (name : Symbol) : Alike b (.symbol name) (.symbol name)
  | vector {x x' : Vec} (h : b.Relates x x') : Alike b (.vector x) (.vector x')
  | call {c c' : Call} (h : b.Relates c c') : Alike b (.call c) (.call c')
  | list {args args' : ArgList} (h : b.Relates args args') : Alike b (.list args) (.list args')
  | dots {args args' : ArgList} (h : b.Relates args args') : Alike b (.dots args) (.dots args')
  | closure {c c' : Closure} (h : b.Relates c c') : Alike b (.closure c) (.closure c')
  | builtin {identity : Identity} {f : Builtin}
    (h : ∀ query, f ≠ .eager (.introspect query)) :
    Alike b (.builtin identity f) (.builtin identity f)
  | promise {p : PromiseId} (h : b.promises p) : Alike b (.promise p) (.promise p)
  | environment {id id' : EnvId} (h : b.Relates id id') :
    Alike b (.environment id) (.environment id')

theorem Relates.alike (h : b.Relates v v') : b.Alike v v' := by
  cases v with
  | null => rw [relates_null.1 h]; exact .null
  | symbol name => rw [relates_symbol.1 h]; exact .symbol name
  | vector x => obtain ⟨x', rfl, hx⟩ := relates_vector.1 h; exact .vector hx
  | call c => obtain ⟨c', rfl, hc⟩ := relates_call.1 h; exact .call hc
  | list args => obtain ⟨args', rfl, hargs⟩ := relates_list.1 h; exact .list hargs
  | dots args => obtain ⟨args', rfl, hargs⟩ := relates_dots.1 h; exact .dots hargs
  | closure c => obtain ⟨c', rfl, hc⟩ := relates_closure.1 h; exact .closure hc
  | builtin identity f => obtain ⟨rfl, hquiet⟩ := relates_builtin.1 h; exact .builtin hquiet
  | promise p => obtain ⟨rfl, hp⟩ := relates_promiseValue.1 h; exact .promise hp
  | environment id => obtain ⟨id', rfl, hid⟩ := relates_environment.1 h; exact .environment hid

/-! ## What values are made of -/

theorem Relates.value {a a' : Arg Value} (h : b.Relates a a') : b.Relates a.value a'.value :=
  h.map fun _ _ => rfl

theorem Relates.tag {a a' : Arg Value} (h : b.Relates a a') : a'.tag = a.tag :=
  h.same fun _ _ => rfl

theorem Within.value {arg : Arg Value} (h : b.Within arg) : b.Within arg.value :=
  h.relates.value.within

theorem relates_arg {tag : Option Symbol} (h : b.Relates v v') :
    b.Relates (⟨tag, v⟩ : Arg Value) ⟨tag, v'⟩ :=
  h.map (f := Arg.mk tag) fun _ _ => rfl

theorem relates_newArg {tag : Option Symbol} (h : b.Relates v v') :
    b.Relates (Arg.new tag v) (.new tag v') :=
  relates_arg h

theorem Relates.attributes {x x' : Vec} (h : b.Relates x x') :
    b.Relates x.attributes x'.attributes :=
  h.map fun _ _ => rfl

theorem Relates.elements {x x' : Vec} (h : b.Relates x x') : x'.elements = x.elements :=
  h.same fun _ _ => rfl

theorem relates_mkVector {identity : Identity} {elements : Elements} {as as' : Attributes}
    (h : b.Relates as as') :
    b.Relates (⟨identity, elements, as⟩ : Vec) ⟨identity, elements, as'⟩ :=
  h.map (f := VectorOf.mk identity elements) fun _ _ => rfl

theorem relates_emptyAttributes : b.Relates AttributeList.empty AttributeList.empty :=
  relates_of_fixed fun _ => rfl

theorem Relates.function {c c' : Call} (h : b.Relates c c') :
    b.Relates c.function c'.function :=
  h.map fun _ _ => rfl

theorem Relates.args {c c' : Call} (h : b.Relates c c') : b.Relates c.args c'.args :=
  h.map fun _ _ => rfl

theorem relates_mkCall {identity : Identity} {args args' : ArgList} (hv : b.Relates v v')
    (hargs : b.Relates args args') :
    b.Relates (⟨identity, v, args⟩ : Call) ⟨identity, v', args'⟩ :=
  hv.map₂ (f := CallOf.mk identity) (fun _ _ _ => rfl) hargs

theorem Relates.formals {c c' : Closure} (h : b.Relates c c') :
    b.Relates c.formals c'.formals :=
  h.map fun _ _ => rfl

theorem Relates.body {c c' : Closure} (h : b.Relates c c') : b.Relates c.body c'.body :=
  h.map fun _ _ => rfl

theorem Relates.env {c c' : Closure} (h : b.Relates c c') : b.Relates c.env c'.env :=
  h.map fun _ _ => rfl

theorem relates_mkClosure {identity : Identity} {formals formals' : ArgList} {env env' : EnvId}
    (hformals : b.Relates formals formals') (hbody : b.Relates v v') (henv : b.Relates env env') :
    b.Relates (⟨identity, formals, v, env⟩ : Closure) ⟨identity, formals', v', env'⟩ := by
  refine ⟨fun r q hrq => ?_, ?_⟩
  · show (⟨identity, rename r formals, rename r v, rename r env⟩ : Closure) =
      ⟨identity, rename q formals, rename q v, rename q env⟩
    rw [hformals.within r q hrq, hbody.within r q hrq, henv.within r q hrq]
  · rw [hformals.image, hbody.image, henv.image]
    rfl

end

/-! ## What is handed on and what is bound -/

/-- Without promises, or a promise itself: what an argument of a closure is. -/
def Passing (b : Bridge) (v : Value) : Prop := b.bare.Within v ∨ ∃ p, v = .promise p

/-- What an argument is, or several such under `...`: what a name is bound to. -/
def Storable (b : Bridge) (v : Value) : Prop :=
  b.Passing v ∨ ∃ args, v = .dots args ∧ ∀ arg ∈ args, b.Passing arg.value

/-- Related arguments of the kind that closures get. -/
structure Hands (b : Bridge) (arg arg' : Arg Value) : Prop where
  relates : b.Relates arg arg'
  passing : b.Passing arg.value

/-- Related argument lists of the kind that closures get. -/
abbrev Passes (b : Bridge) : ArgList → ArgList → Prop := List.Forall₂ b.Hands

/-- Related values that names are bound to. -/
structure Stores (b : Bridge) (v v' : Value) : Prop where
  relates : b.Relates v v'
  storable : b.Storable v

section

variable {v v' : Value} {args args' more : ArgList}

theorem Passing.mono (h : b ≤ c) (hv : b.Passing v) : c.Passing v :=
  hv.imp_left fun hv => hv.mono (bare_mono h)

theorem Storable.mono (h : b ≤ c) (hv : b.Storable v) : c.Storable v :=
  hv.imp (.mono h) fun ⟨args, hargs, hpassing⟩ =>
    ⟨args, hargs, fun arg harg => (hpassing arg harg).mono h⟩

theorem Hands.mono (h : b ≤ c) {arg arg' : Arg Value} (harg : b.Hands arg arg') :
    c.Hands arg arg' :=
  ⟨harg.relates.mono h, harg.passing.mono h⟩

theorem Passes.mono (h : b ≤ c) (hargs : b.Passes args args') : c.Passes args args' :=
  hargs.imp fun _ _ => .mono h

theorem Passes.relates (hargs : b.Passes args args') : b.Relates args args' :=
  relates_iff_forall₂.2 (hargs.imp fun _ _ => Hands.relates)

theorem passes_iff : b.Passes args args' ↔
    b.Relates args args' ∧ ∀ arg ∈ args, b.Passing arg.value := by
  rw [and_comm, relates_iff_forall₂, ← List.forall₂_and_left]
  exact ⟨List.Forall₂.imp fun _ _ h => ⟨h.passing, h.relates⟩,
    List.Forall₂.imp fun _ _ h => ⟨h.2, h.1⟩⟩

theorem Stores.mono (h : b ≤ c) (hv : b.Stores v v') : c.Stores v v' :=
  ⟨hv.relates.mono h, hv.storable.mono h⟩

theorem forall₂_stores {α : Type} {f : α → Value} {l l' : List α}
    (hl : List.Forall₂ (fun a a' => b.Relates (f a) (f a')) l l')
    (hstorable : ∀ a ∈ l, b.Storable (f a)) :
    List.Forall₂ (fun a a' => b.Stores (f a) (f a')) l l' :=
  ((List.forall₂_and_left _ _).2 ⟨hstorable, hl⟩).imp fun _ _ h => ⟨h.2, h.1⟩

theorem Relates.stores (hv : b.Clean v v') : b.Stores v v' := ⟨.of_clean hv, .inl (.inl hv.within)⟩

/-- What is bound and is neither a promise nor `...` is without promises. -/
theorem Stores.clean (hv : b.Stores v v') (hpromise : ∀ p, v ≠ .promise p)
    (hdots : ∀ args, v ≠ .dots args) : b.Clean v v' := by
  obtain (hbare | ⟨p, rfl⟩) | ⟨args, rfl, -⟩ := hv.storable
  · exact hv.relates.clean hbare
  · exact absurd rfl (hpromise p)
  · exact absurd rfl (hdots args)

/-- Only what is without promises is a function. -/
theorem Stores.clean_of_isFunction (hv : b.Stores v v') (h : v.isFunction = true) :
    b.Clean v v' := by
  refine hv.clean ?_ ?_
  all_goals
    rintro _ rfl
    cases h

theorem Stores.of_dots (hv : b.Stores (.dots args) (.dots args')) : b.Passes args args' := by
  obtain ⟨_, hsame, hargs⟩ := relates_dots.1 hv.relates
  cases hsame
  refine passes_iff.2 ⟨hargs, fun arg harg => ?_⟩
  obtain (hbare | ⟨p, hp⟩) | ⟨args, hsame, hpassing⟩ := hv.storable
  · obtain ⟨_, -, hclean⟩ := relates_dots.1 hbare.relates
    exact .inl (within_list.1 hclean.within arg harg).value
  · cases hp
  · cases hsame
    exact hpassing arg harg

end

/-- Two environments of a bridge are the same if their counterparts are. -/
theorem eq_iff_eq {id other target target' : EnvId} (h : b.Relates id target)
    (h' : b.Relates other target') : target = target' ↔ id = other := by
  rw [relates_env] at h h'
  constructor
  · rintro rfl
    exact b.injective h h'
  · rintro rfl
    exact Option.some.inj (h.symm.trans h')

end Bridge

end CallByNeed
