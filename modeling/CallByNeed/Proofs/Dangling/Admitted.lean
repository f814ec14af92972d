import CallByNeed.Proofs.Heap.Parts
import CallByNeed.Session

/-!
# Values that a session admits

A value is live in a session if every environment that it mentions is there.  It
is admitted if moreover no part of it is the builtin by which a host lets the
program itself ask for a collection: a collection in the middle of an evaluation
does not know of the values that this evaluation has in hand.

Whether a value is admitted is a matter of its parts (`Session.Admits.parts`), one
kind of value after the other.  As a session goes on, what it admits remains
admitted, if no frame goes away and every promise that is new or changed is a
promise of something admitted (`Session.Admits.of_cells`).
-/

namespace CallByNeed

/-- Whether the value is the builtin that asks for a collection. -/
def Value.isCollector : Value → Bool
  | .builtin _ b => b == .eager (.introspect .collect)
  | _ => false

/-- No part of the value asks for a collection. -/
def Value.Quiet (store : PromiseStore) (v : Value) : Prop :=
  ∀ w, v.Part store w → w.isCollector = false

namespace Session

variable {s t : Session} {v : Value}

/-- Every environment that the value mentions is there. -/
def Live (s : Session) (v : Value) : Prop :=
  ∀ id, v.Mentions s.promises id → s.heap.contains id = true

/-- The value is live, and it asks for no collection. -/
structure Admits (s : Session) (v : Value) : Prop where
  live : s.Live v
  quiet : v.Quiet s.promises

/-- The environment that the value itself has is there, and it does not itself ask for a
    collection. -/
structure AdmitsHead (s : Session) (v : Value) : Prop where
  live : ∀ id, v.ownEnv? s.promises = some id → s.heap.contains id = true
  quiet : v.isCollector = false

theorem admits_iff_parts : s.Admits v ↔ ∀ w, v.Part s.promises w → s.AdmitsHead w := by
  constructor
  · intro h w hpart
    exact ⟨fun id hown => h.live id ⟨w, hpart, hown⟩, h.quiet w hpart⟩
  · intro h
    exact ⟨fun id ⟨w, hpart, hown⟩ => (h w hpart).live id hown, fun w hpart => (h w hpart).quiet⟩

theorem admits_iff :
    s.Admits v ↔ s.AdmitsHead v ∧ ∀ w, Value.Child s.promises v w → s.Admits w := by
  simp only [admits_iff_parts]
  constructor
  · intro h
    exact ⟨h v .refl, fun w hchild u hpart => h u (.head hchild hpart)⟩
  · rintro ⟨hhead, hchildren⟩ w hpart
    obtain rfl | ⟨u, hchild, hrest⟩ := Relation.ReflTransGen.cases_head hpart
    · exact hhead
    · exact hchildren u hchild w hrest

theorem Admits.child (h : s.Admits v) {w : Value} (hchild : Value.Child s.promises v w) :
    s.Admits w :=
  (admits_iff.1 h).2 w hchild

/-! ## One kind of value after the other -/

theorem AdmitsHead.of_ownEnvless (hown : v.ownEnv? s.promises = none)
    (hquiet : v.isCollector = false) : s.AdmitsHead v := by
  refine ⟨fun id h => ?_, hquiet⟩
  rw [hown] at h
  cases h

theorem admits_of_childless (hown : v.ownEnv? s.promises = none) (hquiet : v.isCollector = false)
    (hchild : ∀ w, ¬ Value.Child s.promises v w) : s.Admits v :=
  admits_iff.2 ⟨.of_ownEnvless hown hquiet, fun w h => absurd h (hchild w)⟩

@[simp] theorem admits_null : s.Admits .null :=
  admits_of_childless rfl rfl fun _ h => nomatch h

@[simp] theorem admits_symbol (name : Symbol) : s.Admits (.symbol name) :=
  admits_of_childless rfl rfl fun _ h => nomatch h

@[simp] theorem admits_missingArg : s.Admits .missingArg := admits_symbol _

theorem admits_builtin (identity : Identity) {b : Builtin}
    (h : b ≠ .eager (.introspect .collect)) : s.Admits (.builtin identity b) :=
  admits_of_childless rfl (by simpa [Value.isCollector] using h) fun _ h => nomatch h

theorem Admits.builtin {identity : Identity} {b : Builtin} (h : s.Admits (.builtin identity b)) :
    b ≠ .eager (.introspect .collect) := by
  simpa [Value.isCollector] using h.quiet _ .refl

@[simp] theorem admits_environment {id : EnvId} :
    s.Admits (.environment id) ↔ s.heap.contains id = true := by
  rw [admits_iff]
  constructor
  · intro h
    exact h.1.live id rfl
  · intro h
    refine ⟨⟨fun other hown => ?_, rfl⟩, fun _ hchild => nomatch hchild⟩
    cases hown
    exact h

/-- The session admits every argument. -/
def AdmitsArgs (s : Session) (args : ArgList) : Prop := ∀ arg ∈ args, s.Admits arg.value

/-- The session admits every attribute. -/
def AdmitsAttributes (s : Session) (attributes : Attributes) : Prop :=
  ∀ entry ∈ attributes.entries, s.Admits entry.2

theorem admits_list {args : ArgList} : s.Admits (.list args) ↔ s.AdmitsArgs args := by
  rw [admits_iff]
  constructor
  · intro h arg harg
    exact h.2 _ (.element harg)
  · intro h
    refine ⟨.of_ownEnvless rfl rfl, fun w hchild => ?_⟩
    cases hchild with
    | element harg => exact h _ harg

theorem admits_dots {args : ArgList} : s.Admits (.dots args) ↔ s.AdmitsArgs args := by
  rw [admits_iff]
  constructor
  · intro h arg harg
    exact h.2 _ (.dot harg)
  · intro h
    refine ⟨.of_ownEnvless rfl rfl, fun w hchild => ?_⟩
    cases hchild with
    | dot harg => exact h _ harg

theorem admits_vector {vec : Vec} :
    s.Admits (.vector vec) ↔ s.AdmitsAttributes vec.attributes := by
  rw [admits_iff]
  constructor
  · intro h entry hentry
    exact h.2 _ (.ofAttribute vec hentry)
  · intro h
    refine ⟨.of_ownEnvless rfl rfl, fun w hchild => ?_⟩
    cases hchild with
    | ofAttribute _ hentry => exact h _ hentry

theorem admits_call {call : Call} :
    s.Admits (.call call) ↔ s.Admits call.function ∧ s.AdmitsArgs call.args := by
  rw [admits_iff]
  constructor
  · intro h
    exact ⟨h.2 _ (.function call), fun arg harg => h.2 _ (.argument call harg)⟩
  · intro ⟨hfunction, hargs⟩
    refine ⟨.of_ownEnvless rfl rfl, fun w hchild => ?_⟩
    cases hchild with
    | function => exact hfunction
    | argument _ harg => exact hargs _ harg

theorem admits_closure {closure : Closure} :
    s.Admits (.closure closure) ↔
      s.heap.contains closure.env = true ∧ s.AdmitsArgs closure.formals ∧
        s.Admits closure.body := by
  rw [admits_iff]
  constructor
  · intro h
    exact ⟨h.1.live _ rfl, fun arg harg => h.2 _ (.formal closure harg), h.2 _ (.body closure)⟩
  · intro ⟨henv, hformals, hbody⟩
    refine ⟨⟨fun id hown => ?_, rfl⟩, fun w hchild => ?_⟩
    · cases hown
      exact henv
    · cases hchild with
      | formal _ harg => exact hformals _ harg
      | body => exact hbody

/-- The session admits what the promise is a promise of, and where it is to be evaluated. -/
structure AdmitsPromise (s : Session) (p : Promise) : Prop where
  expr : s.Admits p.expr
  env : ∀ {id}, p.env? = some id → s.heap.contains id = true
  value : ∀ {value}, p.value? = some value → s.Admits value

theorem admits_promise {id : PromiseId} :
    s.Admits (.promise id) ↔ ∀ p, s.promises.get? id = some p → s.AdmitsPromise p := by
  rw [admits_iff]
  constructor
  · intro h p hp
    constructor
    case expr => exact h.2 _ (.expr hp)
    case env => exact fun henv => h.1.live _ (Option.bind_eq_some_iff.2 ⟨p, hp, henv⟩)
    case value => exact fun hvalue => h.2 _ (.kept hp hvalue)
  · intro h
    refine ⟨⟨fun env hown => ?_, rfl⟩, fun w hchild => ?_⟩
    · obtain ⟨p, hp, henv⟩ := Option.bind_eq_some_iff.1 hown
      exact (h p hp).env henv
    · cases hchild with
      | expr hp => exact (h _ hp).expr
      | kept hp hvalue => exact (h _ hp).value hvalue

/-! ## What remains admitted -/

/-- What is admitted remains so if no frame goes away and every promise is one of something that was
    admitted, at least if the promise itself was. -/
theorem Admits.of_cells (h : s.Admits v)
    (hheap : ∀ id, s.heap.contains id = true → t.heap.contains id = true)
    (hcells : ∀ id p, t.promises.get? id = some p → s.Admits (.promise id) →
      s.AdmitsPromise p) :
    t.Admits v := by
  -- whatever the new session sees inside of `v`, the old one admits
  have hpart (w : Value) (hw : v.Part t.promises w) : s.Admits w := by
    induction hw with
    | refl => exact h
    | tail _ hchild ih =>
      cases hchild with
      | formal c harg => exact ih.child (.formal c harg)
      | body c => exact ih.child (.body c)
      | function c => exact ih.child (.function c)
      | argument c harg => exact ih.child (.argument c harg)
      | element harg => exact ih.child (.element harg)
      | dot harg => exact ih.child (.dot harg)
      | ofAttribute vec hentry => exact ih.child (.ofAttribute vec hentry)
      | expr hp => exact (hcells _ _ hp ih).expr
      | kept hp hvalue => exact (hcells _ _ hp ih).value hvalue
  refine admits_iff_parts.2 fun w hw => ⟨fun id hown => ?_, ?_⟩
  · have hadmitted := hpart w hw
    cases w with
    | environment env =>
      cases hown
      exact hheap id (admits_environment.1 hadmitted)
    | closure c =>
      cases hown
      exact hheap _ (admits_closure.1 hadmitted).1
    | promise p =>
      obtain ⟨cell, hcell, henv⟩ := Option.bind_eq_some_iff.1 hown
      exact hheap id ((hcells p cell hcell hadmitted).env henv)
    | _ => cases hown
  · exact (hpart w hw).quiet w .refl

theorem Admits.of_heap (h : s.Admits v) (hpromises : t.promises = s.promises)
    (hheap : ∀ id, s.heap.contains id = true → t.heap.contains id = true) : t.Admits v := by
  refine h.of_cells hheap fun id p hp hid => ?_
  rw [hpromises] at hp
  exact admits_promise.1 hid p hp

end Session

end CallByNeed
