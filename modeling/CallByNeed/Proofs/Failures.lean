import CallByNeed.Session

/-!
# What computations fail with

Two errors say something about the session rather than about the program.  Only
the check in front of an invocation reports that calls are nested too deeply
(`Overflowless`), and only a look at a frame reports a stale environment.  Pairing
arguments with formals and the computations of the builtins report neither
(`Plain`).
-/

namespace CallByNeed

/-- Whether an error reports that invocations are nested too deeply. -/
def EvalError.isOverflow : EvalError → Bool
  | .stackOverflow _ => true
  | _ => false

/-- Whether an error reports a reference to a frame that was freed. -/
def EvalError.isStale : EvalError → Bool
  | .staleEnvironment _ => true
  | _ => false

theorem bind_eq_ok_iff {α β ε : Type} {x : Except ε α} {f : α → Except ε β} {b : β} :
    x >>= f = .ok b ↔ ∃ a, x = .ok a ∧ f a = .ok b := by
  cases x <;> simp [bind, Except.bind]

/-- If the computation fails, then with an error that has the property. -/
def FailsOnly {α : Type} (p : EvalError → Prop) (r : Except EvalError α) : Prop :=
  ∀ e, r = .error e → p e

/-- The computation does not fail with an overflow of the stack. -/
abbrev Overflowless {α : Type} (r : Except EvalError α) : Prop :=
  FailsOnly (fun e => e.isOverflow = false) r

/-- The computation fails neither with an overflow of the stack nor with a stale environment. -/
abbrev Plain {α : Type} (r : Except EvalError α) : Prop :=
  FailsOnly (fun e => (e.isOverflow || e.isStale) = false) r

namespace FailsOnly

variable {α β : Type} {p : EvalError → Prop}

theorem ok (a : α) : FailsOnly p (.ok a : Except EvalError α) := fun _ h => nomatch h

theorem error {e : EvalError} (h : p e) : FailsOnly p (.error e : Except EvalError α) :=
  fun _ he => by cases he; exact h

theorem bind {x : Except EvalError α} {f : α → Except EvalError β} (hx : FailsOnly p x)
    (hf : ∀ a, FailsOnly p (f a)) : FailsOnly p (x >>= f) := by
  cases x with
  | error e => exact error (hx e rfl)
  | ok a => exact hf a

theorem map {x : Except EvalError α} (f : α → β) (hx : FailsOnly p x) :
    FailsOnly p (f <$> x) := by
  cases x with
  | error e => exact error (hx e rfl)
  | ok a => exact ok (f a)

theorem ite {q : Prop} [Decidable q] {x y : Except EvalError α} (hx : FailsOnly p x)
    (hy : FailsOnly p y) : FailsOnly p (if q then x else y) := by
  split
  · exact hx
  · exact hy

theorem mapM {f : α → Except EvalError β} {items : List α} (h : ∀ a, FailsOnly p (f a)) :
    FailsOnly p (items.mapM f) := by
  induction items with
  | nil => exact ok []
  | cons a rest ih =>
    rw [List.mapM_cons]
    exact (h a).bind fun b => ih.bind fun bs => ok _

end FailsOnly

namespace Plain

variable {α : Type} {r : Except EvalError α}

theorem overflowless (h : Plain r) : Overflowless r := fun e he => by
  have hplain := h e he
  simp only [Bool.or_eq_false_iff] at hplain
  exact hplain.1

theorem staleless (h : Plain r) {e : EvalError} (he : r = .error e) : e.isStale = false := by
  have hplain := h e he
  simp only [Bool.or_eq_false_iff] at hplain
  exact hplain.2

end Plain

open FailsOnly

/-! ## Frames and scopes -/

namespace Heap

variable (h : Heap) (env : EnvId) (name : Symbol)

theorem overflowless_frame : Overflowless (h.frame env) := by
  unfold frame
  split
  · exact ok _
  · exact error rfl

theorem overflowless_owner? (scope : Scope) : Overflowless (scope.owner? name) := by
  unfold Scope.owner?
  split
  · exact ok _
  · exact error rfl
  · exact ok _

theorem overflowless_find : Overflowless (h.find env name) :=
  (overflowless_owner? name _).bind fun _ => ok _

theorem overflowless_lookup : Overflowless (h.lookup env name) :=
  (h.overflowless_find env name).bind fun found => by
    cases found with
    | some _ => exact ok _
    | none => exact error rfl

theorem overflowless_getLocal : Overflowless (h.getLocal env name) :=
  (h.overflowless_frame env).bind fun _ => ok _

theorem overflowless_methodsTable : Overflowless (h.methodsTable env) :=
  (h.overflowless_getLocal env methodsTableName).bind fun found => by
    split <;> exact ok _

theorem overflowless_nonLocalTarget (global : EnvId) :
    Overflowless (h.nonLocalTarget env name global) :=
  ((h.overflowless_frame env).bind fun _ => ok _).bind fun _ =>
    (overflowless_owner? name _).bind fun found => by
      cases found with
      | some _ => exact ok _
      | none => exact ok _

end Heap

/-! ## Pairing arguments with formals -/

namespace Matching

theorem plain_pairByName (formals : ArgList) (actuals : List (Arg Value × Nat))
    (pairs : Pairing) : Plain (pairByName formals actuals pairs) := by
  fun_induction pairByName formals actuals pairs with
  | case1 => exact ok _
  | case2 => assumption
  | case3 => assumption
  | case4 => exact error rfl
  | case5 => assumption

theorem plain_pairByPrefix (formals : ArgList) (named : Pairing)
    (actuals : List (Arg Value × Nat)) (pairs : Pairing) :
    Plain (pairByPrefix formals named actuals pairs) := by
  fun_induction pairByPrefix formals named actuals pairs with
  | case1 => exact ok _
  | case2 => assumption
  | case3 => assumption
  | case4 => assumption
  | case5 => exact error rfl
  | case6 => assumption
  | case7 => exact error rfl

theorem plain_fill (formals actuals : ArgList) (pairs : Pairing) (populate : Bool) :
    Plain (fill formals actuals pairs populate) := by
  refine mapM fun (formal, i) => ite (ok _) ?_
  split
  · exact ok _
  · exact ite (error rfl) (ok _)

end Matching

open Matching in
theorem plain_matchFormals (formals actuals : ArgList) (populate : Bool) :
    Plain (matchFormals formals actuals populate) := by
  refine (FailsOnly.bind ?_ fun pairs => ?_ : Plain (_ >>= _))
  · exact (plain_pairByName _ _ _).bind fun named =>
      (plain_pairByPrefix _ _ _ _).bind fun _ => ok _
  · split
    · exact error rfl
    · exact plain_fill _ _ _ _

/-! ## Arguments of builtins -/

theorem plain_argsByName (args : ArgList) (formals : List String) :
    Plain (argsByName args formals) :=
  (plain_matchFormals _ _ _).bind fun _ => ok _

theorem plain_requireArg (builtin : String) (values : List Value) (i : Nat) :
    Plain (requireArg builtin values i) := by
  unfold requireArg
  split
  · exact ite (error rfl) (ok _)
  · exact error rfl

theorem plain_nameArg (value : Value) (what : String) :
    Plain (nameArg value what) := by
  unfold nameArg
  split
  · exact ok _
  · exact error rfl

theorem plain_environmentOr (default : EnvId) (value : Value) :
    Plain (environmentOr default value) := by
  unfold environmentOr
  split
  · exact ok _
  · exact ite (ok _) (error rfl)

theorem plain_imports (known : Namespaces) (name : Symbol) :
    Plain (known.imports name) := by
  refine FailsOnly.bind ?_ fun _ => error (e := .unsupported "getNamespaceImports") rfl
  unfold Namespaces.require
  split
  · exact ok _
  · exact error rfl

/-! ## Builtins on values -/

namespace Builtin

theorem plain_numbersOf (v : Value) (context : String) :
    Plain (numbersOf v context) := by
  unfold numbersOf
  split
  · exact ok _
  · exact ok _
  · exact ok _
  · exact error rfl

theorem plain_elementwise (change : Array Float → Array Float) (x : Value) :
    Plain (elementwise change x) :=
  (plain_numbersOf _ _).bind fun _ => ok _

theorem plain_arithmetic (op : BinaryOp) (args : ArgList) :
    Plain (arithmetic op args) := by
  unfold arithmetic
  split
  · unfold prefixed
    split
    · exact plain_elementwise _ _
    · exact plain_elementwise _ _
    · exact error rfl
  · exact (plain_numbersOf _ _).bind fun _ =>
      (plain_numbersOf _ _).bind fun _ => ok _
  · exact error rfl

theorem plain_math (f : MathFunction) (args : ArgList) : Plain (math f args) := by
  unfold math
  split
  · exact plain_elementwise _ _
  · exact error rfl

theorem plain_compare (op : Comparison) (args : ArgList) :
    Plain (compare op args) := by
  unfold compare
  split
  · exact (plain_numbersOf _ _).bind fun _ =>
      (plain_numbersOf _ _).bind fun _ => ok _
  · exact error rfl

theorem plain_sequence (args : ArgList) : Plain (sequence args) := by
  unfold sequence
  split
  · split
    · exact ite (map _ (ite (ok _) (error rfl))) (error rfl)
    · exact error rfl
  · exact error rfl

theorem plain_combine (args : ArgList) : Plain (combine args) := by
  refine ite (ok _) (FailsOnly.bind (mapM fun v => ?_) fun _ => ok _)
  unfold elementsToCombine
  split
  · exact ok _
  · exact error rfl

theorem plain_length (args : ArgList) : Plain (length args) := by
  unfold length
  split
  · exact ok _
  · exact error rfl

theorem plain_reduce (op : Reduction) (args : ArgList) :
    Plain (reduce op args) := by
  cases op with
  | sum => exact (mapM fun _ => plain_numbersOf _ _).bind fun _ => ok _
  | mean =>
    cases args with
    | nil => exact error rfl
    | cons x _ => exact (plain_numbersOf _ _).bind fun _ => ok _

theorem plain_margin (op : Margin) (args : ArgList) : Plain (margin op args) := by
  refine (FailsOnly.bind ?_ fun _ => ok _ : Plain (_ >>= _))
  unfold matrixArg
  split
  · split
    · exact ok _
    · exact error rfl
  · exact error rfl

theorem plain_withAttributes (args : ArgList) : Plain (withAttributes args) := by
  unfold withAttributes
  split
  · exact error rfl
  · split
    · exact ok _
    · exact error rfl

theorem plain_attributeOf (args : ArgList) : Plain (attributeOf args) :=
  (plain_argsByName _ _).bind fun _ =>
    (plain_requireArg _ _ _).bind fun _ =>
      (plain_requireArg _ _ _).bind fun _ =>
        (plain_nameArg _ _).bind fun _ => ok _

theorem plain_classOf (args : ArgList) : Plain (classOf args) :=
  (plain_argsByName _ _).bind fun _ =>
    (plain_requireArg _ _ _).bind fun _ => by
      split <;> exact ok _

theorem plain_environmentOf (args : ArgList) (env : EnvId) :
    Plain (environmentOf args env) :=
  (plain_argsByName _ _).bind fun _ => by
    split <;> exact ok _

end Builtin

end CallByNeed
