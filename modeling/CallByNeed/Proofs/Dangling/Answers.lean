import CallByNeed.Proofs.Dangling.Sessions
import CallByNeed.Proofs.Failures
import CallByNeed.Proofs.Matching.Assignment

/-!
# Answers of builtins are admitted

Builtins make their answers from the values of their arguments: they hand on an
argument or an attribute, or carry the attributes of arguments over to a new
vector.  So a session that admits the arguments admits the answer.
-/

namespace CallByNeed

/-! ## Computations that yield values of a kind -/

/-- If the computation succeeds, then with a value that has the property. -/
def Yields {α : Type} (p : α → Prop) (r : Except EvalError α) : Prop := ∀ a, r = .ok a → p a

namespace Yields

variable {α β : Type} {p : α → Prop} {q : β → Prop}

theorem ok {a : α} (h : p a) : Yields p (.ok a) := fun _ ha => by cases ha; exact h

theorem error (e : EvalError) : Yields p (.error e) := fun _ ha => nomatch ha

theorem bind {x : Except EvalError α} {f : α → Except EvalError β} (hx : Yields p x)
    (hf : ∀ a, p a → Yields q (f a)) : Yields q (x >>= f) := by
  cases x with
  | error e => exact error e
  | ok a => exact hf a (hx a rfl)

/-- Whatever the first computation yields. -/
theorem after {x : Except EvalError α} {f : α → Except EvalError β} (hf : ∀ a, Yields q (f a)) :
    Yields q (x >>= f) :=
  bind (p := fun _ => True) (fun _ _ => trivial) fun a _ => hf a

theorem ite {c : Prop} [Decidable c] {x y : Except EvalError α} (hx : Yields p x)
    (hy : Yields p y) : Yields p (if c then x else y) := by
  split
  · exact hx
  · exact hy

theorem mapM {f : α → Except EvalError β} {items : List α} (h : ∀ a ∈ items, Yields q (f a)) :
    Yields (fun bs => ∀ b ∈ bs, q b) (items.mapM f) := by
  induction items with
  | nil => exact ok fun _ hb => nomatch hb
  | cons a rest ih =>
    rw [List.mapM_cons]
    refine (h a List.mem_cons_self).bind fun b hb => ?_
    refine (ih fun c hc => h c (.tail _ hc)).bind fun bs hbs => ok fun c hc => ?_
    obtain rfl | hc := List.mem_cons.1 hc
    · exact hb
    · exact hbs c hc

end Yields

/-! ## What formals are supplied with -/

namespace Matching

variable {actuals : ArgList}

/-- What a formal may be supplied with: nothing, one of the actuals as it is, or some of them under
    `...`. -/
inductive Supplied (actuals : ArgList) : Value → Prop where
  | missing : Supplied actuals .missingArg
  | argument {actual : Arg Value} (h : actual ∈ actuals) : Supplied actuals actual.value
  | collected {rest : ArgList} (h : rest.Sublist actuals) : Supplied actuals (.dots rest)

theorem sublist_leftover (actuals : ArgList) (pairs : Pairing) :
    ((leftover actuals pairs).map (·.1)).Sublist actuals := by
  have hsublist := (List.filter_sublist (l := actuals.zipIdx)
    (p := fun actual => !pairs.hasActual actual.2)).map Prod.fst
  rwa [List.zipIdx_map_fst] at hsublist

theorem yields_fill {pairs : Pairing} (formals : ArgList) (hpairs : pairs.PassOn actuals)
    (populate : Bool) :
    Yields (fun result => ∀ arg ∈ result, Supplied actuals arg.value)
      (fill formals actuals pairs populate) := by
  refine Yields.mapM (q := fun arg : Arg Value => Supplied actuals arg.value)
    fun (formal, i) _ => .ite ?_ ?_
  · exact .ok (.collected (sublist_leftover actuals pairs))
  · split
    · rename_i value hvalue
      obtain ⟨p, hp, rfl⟩ := Option.map_eq_some_iff.1 hvalue
      obtain ⟨actual, hactual, hsame⟩ :=
        Option.map_eq_some_iff.1 (hpairs p (List.mem_of_find?_eq_some hp))
      refine .ok ?_
      show Supplied actuals p.value
      rw [← hsame]
      exact .argument (List.mem_of_getElem? hactual)
    · exact .ite (.error _) (.ok .missing)

theorem yields_supplied (formals actuals : ArgList) (populate : Bool) :
    Yields (fun matched => ∀ arg ∈ matched, Supplied actuals arg.value)
      (matchFormals formals actuals populate) := by
  refine Yields.bind (p := fun pairs : Pairing => pairs.PassOn actuals)
    (fun pairs hpairs => passOn_of_pair hpairs) fun pairs hpairs => ?_
  split
  · exact .error _
  · exact yields_fill formals hpairs populate

end Matching

namespace Session

variable {s : Session} {v : Value} {args : ArgList}

/-! ## Arguments and attributes -/

@[simp] theorem admitsArgs_nil : s.AdmitsArgs [] := fun _ h => nomatch h

@[simp] theorem admitsArgs_cons {arg : Arg Value} :
    s.AdmitsArgs (arg :: args) ↔ s.Admits arg.value ∧ s.AdmitsArgs args := by
  simp [AdmitsArgs]

@[simp] theorem admitsArgs_append {rest : ArgList} :
    s.AdmitsArgs (args ++ rest) ↔ s.AdmitsArgs args ∧ s.AdmitsArgs rest := by
  simp [AdmitsArgs, or_imp, forall_and]

@[simp] theorem admitsAttributes_empty : s.AdmitsAttributes .empty := fun _ h => nomatch h

theorem AdmitsAttributes.set {attributes : Attributes} (h : s.AdmitsAttributes attributes)
    (name : Symbol) (hv : s.Admits v) : s.AdmitsAttributes (attributes.set name v) := by
  by_cases hnull : v = .null
  · subst hnull
    exact fun entry hentry => h entry (List.mem_of_mem_eraseP hentry)
  · rw [AttributeList.set_eq_put hnull]
    intro entry hentry
    obtain rfl | hold := Assoc.mem_put hentry
    · exact hv
    · exact h entry hold

theorem AdmitsAttributes.merged {left right : Attributes} (hleft : s.AdmitsAttributes left)
    (hright : s.AdmitsAttributes right) : s.AdmitsAttributes (left.merged right) := by
  obtain ⟨entries⟩ := right
  unfold AttributeList.merged
  induction entries generalizing left with
  | nil => exact hleft
  | cons entry rest ih =>
    rw [List.foldl_cons]
    refine ih ?_ fun other hother => hright other (.tail _ hother)
    split
    · exact hleft
    · intro other hother
      obtain hother | hother := List.mem_append.1 hother
      · exact hleft other hother
      · rw [List.mem_singleton.1 hother]
        exact hright entry List.mem_cons_self

theorem AdmitsAttributes.get? {attributes : Attributes} (h : s.AdmitsAttributes attributes)
    {name : Symbol} (hget : attributes.get? name = some v) : s.Admits v := by
  obtain ⟨before, after, hentries, -⟩ := List.lookup_eq_some_iff.1 hget
  exact h (name, v) (by rw [hentries]; simp)

theorem Admits.attributes? {attributes : Attributes} (h : s.Admits v)
    (hv : v.attributes? = some attributes) : s.AdmitsAttributes attributes := by
  cases v with
  | vector vec =>
    cases hv
    exact admits_vector.1 h
  | _ => cases hv

theorem Admits.attribute? {name : Symbol} {w : Value} (h : s.Admits v)
    (hw : v.attribute? name = some w) : s.Admits w := by
  obtain ⟨attributes, hattributes, hget⟩ := Option.bind_eq_some_iff.1 hw
  exact (h.attributes? hattributes).get? hget

/-! ## Pairing arguments with formals -/

open Matching in
theorem yields_matchFormals (formals : ArgList) (hargs : s.AdmitsArgs args) (populate : Bool) :
    Yields s.AdmitsArgs (matchFormals formals args populate) := by
  intro matched hmatched arg harg
  have hsupplied := yields_supplied formals args populate matched hmatched arg harg
  generalize arg.value = value at hsupplied
  cases hsupplied with
  | missing => exact admits_missingArg
  | argument h => exact hargs _ h
  | collected h => exact admits_dots.2 fun dot hdot => hargs dot (h.subset hdot)

/-! ## Arguments of builtins -/

theorem yields_argsByName (hargs : s.AdmitsArgs args) (formals : List String) :
    Yields (fun values => ∀ v ∈ values, s.Admits v) (argsByName args formals) := by
  refine (yields_matchFormals _ hargs true).bind fun matched hmatched => .ok fun v hv => ?_
  obtain ⟨arg, harg, rfl⟩ := List.mem_map.1 hv
  exact hmatched arg harg

theorem yields_requireArg (builtin : String) {values : List Value}
    (hvalues : ∀ v ∈ values, s.Admits v) (i : Nat) :
    Yields s.Admits (requireArg builtin values i) := by
  unfold requireArg
  split
  · rename_i value hvalue
    exact .ite (.error _) (.ok (hvalues value (List.mem_of_getElem? hvalue)))
  · exact .error _

theorem yields_environmentOr {env : EnvId} (henv : s.heap.contains env = true)
    (hv : s.Admits v) :
    Yields (fun id => s.heap.contains id = true) (environmentOr env v) := by
  unfold environmentOr
  split
  · exact .ok (admits_environment.1 hv)
  · exact .ite (.ok henv) (.error _)

/-! ## Builtins on values -/

/-- The session admits what the answer is made of. -/
def AdmitsAnswer (s : Session) : Answer → Prop
  | .existing value => s.Admits value
  | .fresh _ attributes => s.AdmitsAttributes attributes

open Builtin

theorem admits_carriedAttributes (hv : s.Admits v) (size : Nat) :
    s.AdmitsAttributes (carriedAttributes v size) := by
  unfold carriedAttributes
  split
  · rename_i attributes hattributes
    split
    · exact hv.attributes? hattributes
    · exact admitsAttributes_empty
  · exact admitsAttributes_empty

theorem yields_elementwise (change : Array Float → Array Float) (hv : s.Admits v) :
    Yields s.AdmitsAnswer (elementwise change v) := by
  refine .after fun _ => .ok ?_
  show s.AdmitsAttributes (v.attributes?.getD .empty)
  cases hattributes : v.attributes? with
  | none => exact admitsAttributes_empty
  | some attributes => exact hv.attributes? hattributes

theorem yields_arithmetic (op : BinaryOp) (hargs : s.AdmitsArgs args) :
    Yields s.AdmitsAnswer (arithmetic op args) := by
  unfold arithmetic
  split
  · rename_i x
    have hx : s.Admits x.value := hargs x List.mem_cons_self
    unfold prefixed
    split
    · exact yields_elementwise _ hx
    · exact yields_elementwise _ hx
    · exact .error _
  · simp only [admitsArgs_cons] at hargs
    exact .after fun _ => .after fun _ =>
      .ok ((admits_carriedAttributes hargs.1 _).merged (admits_carriedAttributes hargs.2.1 _))
  · exact .error _

theorem yields_math (f : MathFunction) (hargs : s.AdmitsArgs args) :
    Yields s.AdmitsAnswer (math f args) := by
  unfold math
  split
  · exact yields_elementwise _ (hargs _ List.mem_cons_self)
  · exact .error _

theorem yields_compare (op : Comparison) (args : ArgList) :
    Yields s.AdmitsAnswer (Builtin.compare op args) := by
  unfold Builtin.compare
  split
  · exact .after fun _ => .after fun _ => .ok admitsAttributes_empty
  · exact .error _

theorem yields_sequence (args : ArgList) : Yields s.AdmitsAnswer (Builtin.sequence args) := by
  unfold Builtin.sequence
  split
  · split
    · refine .ite ?_ (.error _)
      rw [← bind_pure_comp]
      exact .after fun _ => .ok admitsAttributes_empty
    · exact .error _
  · exact .error _

theorem yields_combine (args : ArgList) : Yields s.AdmitsAnswer (combine args) :=
  .ite (.ok admits_null) (.after fun _ => .ok admitsAttributes_empty)

theorem yields_length (args : ArgList) : Yields s.AdmitsAnswer (length args) := by
  unfold length
  split
  · exact .ok admitsAttributes_empty
  · exact .error _

theorem yields_reduce (op : Reduction) (args : ArgList) :
    Yields s.AdmitsAnswer (reduce op args) := by
  cases op with
  | sum => exact .after fun _ => .ok admitsAttributes_empty
  | mean =>
    cases args with
    | nil => exact .error _
    | cons x _ => exact .after fun _ => .ok admitsAttributes_empty

theorem yields_margin (op : Margin) (args : ArgList) : Yields s.AdmitsAnswer (margin op args) :=
  .after fun _ => .ok admitsAttributes_empty

theorem yields_withAttributes (hargs : s.AdmitsArgs args) :
    Yields s.AdmitsAnswer (withAttributes args) := by
  unfold withAttributes
  split
  · exact .error _
  · rename_i data hdata
    have hdata : s.Admits data.value := hargs data (List.mem_of_find?_eq_some hdata)
    split
    · rename_i vec hvec
      rw [hvec] at hdata
      refine .ok ?_
      -- the tagged arguments are set one after the other
      have hset (given : List (Symbol × Value)) (hgiven : ∀ entry ∈ given, s.Admits entry.2)
          (attributes : Attributes) (hattributes : s.AdmitsAttributes attributes) :
          s.AdmitsAttributes
            (given.foldl (fun attributes entry => attributes.set entry.1 entry.2) attributes) := by
        induction given generalizing attributes with
        | nil => exact hattributes
        | cons entry rest ih =>
          exact ih (fun other hother => hgiven other (.tail _ hother)) _
            (hattributes.set entry.1 (hgiven entry List.mem_cons_self))
      refine hset _ (fun entry hentry => ?_) _ (admits_vector.1 hdata)
      obtain ⟨arg, harg, hentry⟩ := List.mem_filterMap.1 hentry
      obtain ⟨tag, -, rfl⟩ := Option.map_eq_some_iff.1 hentry
      exact hargs arg harg
    · exact .error _

theorem yields_attributeOf (hargs : s.AdmitsArgs args) :
    Yields s.AdmitsAnswer (attributeOf args) := by
  refine (yields_argsByName hargs _).bind fun values hvalues => ?_
  refine (yields_requireArg _ hvalues 0).bind fun x hx => .after fun _ => .after fun which => .ok ?_
  show s.Admits ((x.attribute? ⟨which⟩).getD .null)
  cases hattribute : x.attribute? ⟨which⟩ with
  | none => exact admits_null
  | some value => exact hx.attribute? hattribute

theorem yields_classOf (hargs : s.AdmitsArgs args) : Yields s.AdmitsAnswer (classOf args) := by
  refine (yields_argsByName hargs _).bind fun values hvalues => ?_
  refine (yields_requireArg _ hvalues 0).bind fun x hx => ?_
  split
  · rename_i declared hdeclared
    exact .ok (hx.attribute? hdeclared)
  · exact .ok admitsAttributes_empty

theorem yields_environmentOf (hargs : s.AdmitsArgs args) {env : EnvId}
    (henv : s.heap.contains env = true) : Yields s.AdmitsAnswer (environmentOf args env) := by
  refine (yields_argsByName hargs _).bind fun values hvalues => ?_
  split
  · rename_i closure
    refine .ok (admits_environment.2 ?_)
    exact (admits_closure.1 (hvalues _ List.mem_cons_self)).1
  · exact .ok (admits_environment.2 henv)
  · refine .ok ?_
    show s.Admits (if _ then _ else _)
    split
    · exact admits_environment.2 henv
    · exact admits_null
  · exact .ok admits_null

end Session

end CallByNeed
