import CallByNeed.Builtin.Attributes
import CallByNeed.Builtin.Namespaces
import CallByNeed.Builtin.Numeric
import CallByNeed.Proofs.Twins.Matching

/-!
# Builtins and renaming

The builtins that compute with their arguments only do not compare references:
on renamed arguments they give the renamed answer.
-/

namespace CallByNeed

instance : Renames Answer where
  rename r
    | .existing value => .existing (rename r value)
    | .fresh elements attributes => .fresh elements (rename r attributes)

namespace Renaming

variable {r : Renaming}

@[simp] theorem rename_existing (value : Value) :
    rename r (Answer.existing value) = .existing (rename r value) := rfl

@[simp] theorem rename_fresh (elements : Elements) (attributes : Attributes) :
    rename r (Answer.fresh elements attributes) = .fresh elements (rename r attributes) := rfl

/-! ## Attribute lists -/

theorem rename_put {κ α : Type} [DecidableEq κ] [Renames α] (key : κ) (value : α)
    (entries : List (κ × α)) :
    Assoc.put key (rename r value) (rename r entries) = rename r (Assoc.put key value entries) := by
  induction entries with
  | nil => rfl
  | cons entry rest ih =>
    simp only [rename_cons, rename_entry, Assoc.put]
    split
    · rfl
    · rw [ih]
      rfl

theorem rename_erase {κ α : Type} [DecidableEq κ] [Renames α] (key : κ) (entries : List (κ × α)) :
    Assoc.erase key (rename r entries) = rename r (Assoc.erase key entries) := by
  rw [Assoc.erase, Assoc.erase, rename_list, rename_list, List.eraseP_map]
  rfl

theorem rename_set (attributes : Attributes) (name : Symbol) (value : Value) :
    (rename r attributes).set name (rename r value) = rename r (attributes.set name value) := by
  by_cases hnull : value = .null
  · subst hnull
    exact congrArg AttributeList.mk (rename_erase name attributes.entries)
  · have hnull' : rename r value ≠ .null := by cases value <;> simp_all
    rw [AttributeList.set_eq_put hnull, AttributeList.set_eq_put hnull']
    exact congrArg AttributeList.mk (rename_put name value attributes.entries)

theorem rename_merged (left right : Attributes) :
    (rename r left).merged (rename r right) = rename r (left.merged right) := by
  obtain ⟨entries⟩ := right
  change (rename r entries).foldl _ _ = rename r (entries.foldl _ _)
  induction entries generalizing left with
  | nil => rfl
  | cons entry rest ih =>
    rw [rename_cons, List.foldl_cons, List.foldl_cons, ← ih]
    simp only [rename_entry, contains_rename]
    congr 1
    split
    · rfl
    · exact congrArg AttributeList.mk (rename_append left.entries [entry]).symm

/-! ## Arguments by name -/

theorem argsByName_rename (args : ArgList) (formals : List String) :
    argsByName (rename r args) formals = rename r (argsByName args formals) := by
  unfold argsByName
  have hformals : rename r (formals.map fun name => Arg.tagged ⟨name⟩ Value.missingArg) =
      formals.map fun name => Arg.tagged ⟨name⟩ Value.missingArg := by
    rw [rename_list, List.map_map]
    rfl
  dsimp only
  rw [← hformals, matchFormals_rename, hformals]
  refine bind_rename fun matched => ?_
  simp [rename_list, pure, Except.pure]

theorem requireArg_rename (builtin : String) (values : List Value) (i : Nat) :
    requireArg builtin (rename r values) i = rename r (requireArg builtin values i) := by
  unfold requireArg
  rw [rename_list, List.getElem?_map]
  cases values[i]? with
  | none => rfl
  | some value =>
    simp only [Option.map_some, isMissingArg_rename]
    split <;> rfl

@[simp] theorem nameArg_rename (value : Value) (what : String) :
    nameArg (rename r value) what = nameArg value what := by
  simp only [nameArg, nameText?_rename, typeName_rename]

theorem environmentOr_rename (default : EnvId) (value : Value) :
    environmentOr (rename r default) (rename r value) = rename r (environmentOr default value) := by
  cases value with
  | environment id => rfl
  | vector v => rw [rename_vector]; rfl
  | call c => rw [rename_call]; rfl
  | closure c => rw [rename_closure]; rfl
  | list args => rw [rename_listValue]; rfl
  | dots args => rw [rename_dots]; rfl
  | symbol name => cases h : (Value.symbol name).isMissingArg <;> simp [environmentOr, h]
  | builtin identity b =>
    have htype := @typeName_rename r (.builtin identity b)
    simp only [rename_builtin] at htype ⊢
    simp [environmentOr, Value.isMissingArg, htype]
  | _ => rfl

/-! ## Numeric builtins -/

@[simp] theorem numbersOf_rename (value : Value) (context : String) :
    numbersOf (rename r value) context = numbersOf value context := by
  cases value with
  | vector v =>
    obtain ⟨identity, elements, own⟩ := v
    rw [rename_vector]
    cases elements <;> rfl
  | call c => rw [rename_call]; rfl
  | closure c => rw [rename_closure]; rfl
  | list args => rw [rename_listValue]; rfl
  | dots args => rw [rename_dots]; rfl
  | builtin identity b =>
    have htype := @typeName_rename r (.builtin identity b)
    simp only [rename_builtin] at htype ⊢
    simp [numbersOf, htype]
  | _ => rfl

end Renaming

namespace Builtin

open Renaming

variable {r : Renaming}

theorem carriedAttributes_rename (operand : Value) (size : Nat) :
    carriedAttributes (rename r operand) size = rename r (carriedAttributes operand size) := by
  simp only [carriedAttributes, attributes?_rename, length_value_rename]
  cases operand.attributes? with
  | none => rfl
  | some own =>
    simp only [rename_some]
    split <;> rfl

theorem binary_rename (op : BinaryOp) (x y : Value) :
    binary op (rename r x) (rename r y) = rename r (binary op x y) := by
  unfold binary
  rw [numbersOf_rename, numbersOf_rename]
  cases numbersOf x "binary operator" with
  | error e => rfl
  | ok xs =>
    cases numbersOf y "binary operator" with
    | error e => rfl
    | ok ys =>
      simp [bind, Except.bind, pure, Except.pure, carriedAttributes_rename, rename_merged]

theorem elementwise_rename (change : Array Float → Array Float) (x : Value) :
    elementwise change (rename r x) = rename r (elementwise change x) := by
  unfold elementwise
  rw [numbersOf_rename, attributes?_rename]
  cases numbersOf x "mathematical function" with
  | error e => rfl
  | ok xs =>
    cases hown : x.attributes? <;> rfl

theorem arithmetic_rename (op : BinaryOp) (args : ArgList) :
    arithmetic op (rename r args) = rename r (arithmetic op args) := by
  match args with
  | [] => rfl
  | [x] =>
    cases op with
    | add => exact elementwise_rename _ _
    | sub => exact elementwise_rename _ _
    | _ => rfl
  | [x, y] => exact binary_rename op x.value y.value
  | _ :: _ :: _ :: _ => rfl

theorem math_rename (f : MathFunction) (args : ArgList) :
    math f (rename r args) = rename r (math f args) := by
  match args with
  | [] => rfl
  | [x] => exact elementwise_rename _ _
  | x :: y :: rest => simp [math]

theorem compare_rename (op : Comparison) (args : ArgList) :
    compare op (rename r args) = rename r (compare op args) := by
  match args with
  | [x, y] =>
    simp only [compare, rename_cons, rename_nil, rename_arg, numbersOf_rename]
    cases numbersOf x.value "comparison" with
    | error e => rfl
    | ok xs => cases numbersOf y.value "comparison" <;> rfl
  | [] | [_] | _ :: _ :: _ :: _ => rfl

theorem sequence_rename (args : ArgList) :
    sequence (rename r args) = rename r (sequence args) := by
  match args with
  | [x, y] =>
    simp only [sequence, rename_cons, rename_nil, rename_arg, number?_rename]
    cases x.value.number? with
    | none => rfl
    | some first =>
      cases y.value.number? with
      | none => rfl
      | some last =>
        dsimp only
        split
        · cases stepsOfOne first last <;> rfl
        · rfl
  | [] | [_] | _ :: _ :: _ :: _ => rfl

theorem elementsToCombine_rename (value : Value) :
    elementsToCombine (rename r value) = elementsToCombine value := by
  cases value with
  | builtin identity b =>
    have htype := @typeName_rename r (.builtin identity b)
    simp only [rename_builtin] at htype ⊢
    simp [elementsToCombine, htype]
  | vector v => rw [rename_vector]; rfl
  | call c => rw [rename_call]; rfl
  | closure c => rw [rename_closure]; rfl
  | list args => rw [rename_listValue]; rfl
  | dots args => rw [rename_dots]; rfl
  | _ => rfl

theorem combine_rename (args : ArgList) : combine (rename r args) = rename r (combine args) := by
  have hvalues : ((rename r args).map (·.value)).filter (fun v => !v.isNull) =
      rename r ((args.map (·.value)).filter fun v => !v.isNull) := by
    rw [rename_list, rename_list, List.map_map, List.filter_map, List.filter_map, List.map_map]
    simp [Function.comp_def]
  unfold combine
  dsimp only
  rw [hvalues]
  generalize (args.map (·.value)).filter (fun v => !v.isNull) = values
  have hempty : (rename r values).isEmpty = values.isEmpty := by cases values <;> rfl
  rw [hempty]
  split
  · rfl
  · have hparts : (rename r values).mapM elementsToCombine = values.mapM elementsToCombine := by
      rw [rename_list, List.mapM_map]
      simp only [Function.comp_def, elementsToCombine_rename]
    rw [hparts]
    cases values.mapM elementsToCombine <;> rfl

theorem length_rename (args : ArgList) : length (rename r args) = rename r (length args) := by
  match args with
  | [x] => simp only [length, rename_cons, rename_nil, rename_arg, length_value_rename]; rfl
  | [] | _ :: _ :: _ => rfl

theorem reduce_rename (op : Reduction) (args : ArgList) :
    reduce op (rename r args) = rename r (reduce op args) := by
  cases op with
  | sum =>
    have hsummands : (rename r args).filter (fun arg => arg.tag != some naRemove) =
        rename r (args.filter fun arg => arg.tag != some naRemove) := by
      rw [rename_list, List.filter_map]
      rfl
    simp only [reduce, sumOf, hsummands]
    have hparts : (rename r (args.filter fun arg => arg.tag != some naRemove)).mapM
          (fun arg => numbersOf arg.value "sum") =
        (args.filter fun arg => arg.tag != some naRemove).mapM
          fun arg => numbersOf arg.value "sum" := by
      rw [rename_list, List.mapM_map]
      simp [Function.comp_def]
    rw [hparts]
    cases (args.filter fun arg => arg.tag != some naRemove).mapM
      fun arg => numbersOf arg.value "sum" <;> rfl
  | mean =>
    cases args with
    | nil => rfl
    | cons x rest =>
      simp only [reduce, meanOf, rename_cons, rename_arg, numbersOf_rename]
      cases numbersOf x.value "mean" <;> rfl

theorem margin_rename (op : Margin) (args : ArgList) :
    margin op (rename r args) = rename r (margin op args) := by
  have hmatrix : matrixArg op (rename r args) = matrixArg op args := by
    unfold matrixArg
    cases args with
    | nil => rfl
    | cons x rest =>
      obtain ⟨tag, value⟩ := x
      cases value with
      | vector v =>
        obtain ⟨identity, elements, own⟩ := v
        simp only [rename_cons, rename_arg, rename_vector, rename_vec, List.head?_cons,
          Option.map_some]
        cases elements <;> simp
      | _ => simp
  unfold margin
  rw [hmatrix]
  cases matrixArg op args <;> rfl

/-! ## Builtins on attributes -/

theorem withAttributes_rename (args : ArgList) :
    withAttributes (rename r args) = rename r (withAttributes args) := by
  have hdata : (rename r args).find? (·.tag.isNone) =
      rename r (args.find? (·.tag.isNone)) := by
    rw [rename_list, List.find?_map]
    rfl
  have hgiven : (rename r args).filterMap (fun arg => arg.tag.map fun tag => (tag, arg.value)) =
      rename r (args.filterMap fun arg => arg.tag.map fun tag => (tag, arg.value)) := by
    rw [rename_list, rename_list, List.filterMap_map, List.map_filterMap]
    congr 1
    funext arg
    obtain ⟨tag, value⟩ := arg
    cases tag <;> rfl
  have hfold (given : List (Symbol × Value)) (own : Attributes) :
      (rename r given).foldl (fun own entry => own.set entry.1 entry.2) (rename r own) =
        rename r (given.foldl (fun own entry => own.set entry.1 entry.2) own) := by
    induction given generalizing own with
    | nil => rfl
    | cons entry rest ih =>
      simp only [rename_cons, rename_entry, List.foldl_cons, rename_set]
      exact ih _
  unfold withAttributes
  rw [hdata, hgiven]
  cases args.find? (·.tag.isNone) with
  | none => rfl
  | some data =>
    obtain ⟨tag, value⟩ := data
    cases value with
    | vector v =>
      simp only [rename_some, rename_arg, rename_vector]
      exact congrArg (fun own => Except.ok (Answer.fresh v.elements own)) (hfold _ v.attributes)
    | builtin identity b =>
      have htype := @typeName_rename r (.builtin identity b)
      simp only [rename_some, rename_arg, rename_builtin] at htype ⊢
      simp [htype]
    | _ => simp [Value.typeName]

theorem attributeOf_rename (args : ArgList) :
    attributeOf (rename r args) = rename r (attributeOf args) := by
  unfold attributeOf
  rw [argsByName_rename]
  refine bind_rename fun values => ?_
  rw [requireArg_rename]
  refine bind_rename fun x => ?_
  rw [requireArg_rename]
  cases requireArg "attr" values 1 with
  | error e => rfl
  | ok which =>
    simp only [rename_ok, bind, Except.bind, nameArg_rename]
    cases nameArg which "which" with
    | error e => rfl
    | ok name =>
      simp only [attribute?_rename]
      cases x.attribute? ⟨name⟩ <;> rfl

@[simp] theorem shownClass_rename (x : Value) : shownClass (rename r x) = shownClass x := by
  cases x with
  | vector v =>
    obtain ⟨identity, elements, own⟩ := v
    have hclasses := @classes_rename r (.vector ⟨identity, elements, own⟩)
    rw [rename_vector, rename_vec] at hclasses ⊢
    cases elements with
    | double xs => simp only [shownClass, extents?_rename]
    | _ => exact hclasses
  | builtin identity b => rfl
  | _ => simp [shownClass, Value.classes, Value.attribute?, Value.attributes?, Value.implicitClass]

theorem classOf_rename (args : ArgList) : classOf (rename r args) = rename r (classOf args) := by
  unfold classOf
  rw [argsByName_rename]
  refine bind_rename fun values => ?_
  rw [requireArg_rename]
  refine bind_rename fun x => ?_
  rw [attribute?_rename, shownClass_rename]
  cases x.attribute? .classAttribute <;> rfl

theorem environmentOf_rename (args : ArgList) (env : EnvId) :
    environmentOf (rename r args) (rename r env) = rename r (environmentOf args env) := by
  unfold environmentOf
  rw [argsByName_rename]
  refine bind_rename fun values => ?_
  match values with
  | [] => rfl
  | x :: y :: rest => cases x <;> simp [pure, Except.pure]
  | [value] =>
    cases value with
    | symbol name =>
      simp only [rename_cons, rename_nil, rename_symbol]
      split <;> rfl
    | closure c => simp only [rename_cons, rename_nil, rename_closure]; rfl
    | vector v => simp only [rename_cons, rename_nil, rename_vector]; rfl
    | call c => simp only [rename_cons, rename_nil, rename_call]; rfl
    | list args => simp only [rename_cons, rename_nil, rename_listValue]; rfl
    | dots args => simp only [rename_cons, rename_nil, rename_dots]; rfl
    | _ => rfl

end Builtin

end CallByNeed
