import CallByNeed.Session.Collect
import CallByNeed.Value.Inspect

/-!
# Renaming the references in a value

A renaming gives every environment and every promise another reference, and it
may exchange the builtins that look into the session for each other.  What has
references in it can be renamed (`Renames`); the lemmas here say that looking at
a value is looking at the renamed one, as long as no two references are compared.
-/

namespace CallByNeed

/-- A new reference for each environment and each promise, and a new query for each builtin that
    looks into the session. -/
structure Renaming where
  env : EnvId → EnvId
  promise : PromiseId → PromiseId
  query : Introspection → Introspection

/-- Something that has references in it. -/
class Renames (α : Type) where
  rename : Renaming → α → α

export Renames (rename)

/-! ## Values -/

def Builtin.exchange (r : Renaming) : Builtin → Builtin
  | .eager (.introspect query) => .eager (.introspect (r.query query))
  | b => b

theorem Builtin.exchange_of_quiet {r : Renaming} {b : Builtin}
    (h : ∀ query, b ≠ .eager (.introspect query)) : b.exchange r = b := by
  unfold exchange
  split
  · exact absurd rfl (h _)
  · rfl

mutual

def Value.rename (r : Renaming) : Value → Value
  | .null => .null
  | .symbol name => .symbol name
  | .vector ⟨identity, elements, ⟨entries⟩⟩ =>
    .vector ⟨identity, elements, ⟨Value.renameEntries r entries⟩⟩
  | .call ⟨identity, function, args⟩ =>
    .call ⟨identity, function.rename r, Value.renameArgs r args⟩
  | .list args => .list (Value.renameArgs r args)
  | .dots args => .dots (Value.renameArgs r args)
  | .closure ⟨identity, formals, body, env⟩ =>
    .closure ⟨identity, Value.renameArgs r formals, body.rename r, r.env env⟩
  | .builtin identity b => .builtin identity (b.exchange r)
  | .promise id => .promise (r.promise id)
  | .environment id => .environment (r.env id)

def Value.renameArgs (r : Renaming) : List (Arg Value) → List (Arg Value)
  | [] => []
  | ⟨tag, value⟩ :: rest => ⟨tag, value.rename r⟩ :: Value.renameArgs r rest

def Value.renameEntries (r : Renaming) : List (Symbol × Value) → List (Symbol × Value)
  | [] => []
  | (name, value) :: rest => (name, value.rename r) :: Value.renameEntries r rest

end

section

variable {α : Type} [Renames α]

instance : Renames EnvId := ⟨Renaming.env⟩
instance : Renames PromiseId := ⟨Renaming.promise⟩
instance : Renames Value := ⟨Value.rename⟩
instance : Renames (List α) := ⟨fun r => List.map (rename r)⟩
instance : Renames (Option α) := ⟨fun r => Option.map (rename r)⟩
instance {κ : Type} : Renames (κ × α) := ⟨fun r entry => (entry.1, rename r entry.2)⟩
instance {ε : Type} : Renames (Except ε α) := ⟨fun r => Except.map (rename r)⟩
instance : Renames (Arg α) := ⟨fun r arg => ⟨arg.tag, rename r arg.value⟩⟩
instance : Renames (AttributeList α) := ⟨fun r attributes => ⟨rename r attributes.entries⟩⟩
instance : Renames (VectorOf α) := ⟨fun r v => { v with attributes := rename r v.attributes }⟩
instance : Renames (CallOf α) :=
  ⟨fun r c => { c with function := rename r c.function, args := rename r c.args }⟩
instance : Renames (ClosureOf α) :=
  ⟨fun r c =>
    { c with formals := rename r c.formals, body := rename r c.body, env := rename r c.env }⟩

end

namespace Renaming

variable {r : Renaming}

@[simp] theorem rename_arg (arg : Arg Value) :
    rename r arg = ⟨arg.tag, rename r arg.value⟩ := rfl

@[simp] theorem rename_entry {κ α : Type} [Renames α] (entry : κ × α) :
    rename r entry = (entry.1, rename r entry.2) := rfl

theorem rename_list {α : Type} [Renames α] (l : List α) : rename r l = l.map (rename r) := rfl

@[simp] theorem rename_nil {α : Type} [Renames α] : rename r ([] : List α) = [] := rfl

@[simp] theorem rename_cons {α : Type} [Renames α] (a : α) (l : List α) :
    rename r (a :: l) = rename r a :: rename r l := rfl

@[simp] theorem rename_append {α : Type} [Renames α] (l l' : List α) :
    rename r (l ++ l') = rename r l ++ rename r l' := List.map_append

@[simp] theorem length_rename {α : Type} [Renames α] (l : List α) :
    (rename r l).length = l.length := List.length_map _

@[simp] theorem rename_none {α : Type} [Renames α] : rename r (none : Option α) = none := rfl

@[simp] theorem rename_some {α : Type} [Renames α] (a : α) :
    rename r (some a) = some (rename r a) := rfl

theorem renameArgs_eq (args : ArgList) : Value.renameArgs r args = rename r args := by
  induction args with
  | nil => rfl
  | cons arg rest ih => exact congrArg _ ih

theorem renameEntries_eq (entries : List (Symbol × Value)) :
    Value.renameEntries r entries = rename r entries := by
  induction entries with
  | nil => rfl
  | cons entry rest ih => exact congrArg _ ih

@[simp] theorem rename_null : rename r Value.null = .null := rfl

@[simp] theorem rename_symbol (name : Symbol) : rename r (Value.symbol name) = .symbol name := rfl

@[simp] theorem rename_missingArg : rename r Value.missingArg = .missingArg := rfl

@[simp] theorem rename_vec (identity : Identity) (elements : Elements) (attributes : Attributes) :
    rename r (⟨identity, elements, attributes⟩ : Vec) =
      ⟨identity, elements, rename r attributes⟩ := rfl

@[simp] theorem rename_vector (v : Vec) : rename r (Value.vector v) = .vector (rename r v) := by
  obtain ⟨identity, elements, ⟨entries⟩⟩ := v
  exact congrArg (fun entries => Value.vector ⟨identity, elements, ⟨entries⟩⟩)
    (renameEntries_eq entries)

@[simp] theorem rename_call (c : Call) : rename r (Value.call c) = .call (rename r c) := by
  obtain ⟨identity, function, args⟩ := c
  exact congrArg (fun args => Value.call ⟨identity, function.rename r, args⟩) (renameArgs_eq args)

@[simp] theorem rename_listValue (args : ArgList) :
    rename r (Value.list args) = .list (rename r args) :=
  congrArg Value.list (renameArgs_eq args)

@[simp] theorem rename_dots (args : ArgList) :
    rename r (Value.dots args) = .dots (rename r args) :=
  congrArg Value.dots (renameArgs_eq args)

@[simp] theorem rename_closure (c : Closure) :
    rename r (Value.closure c) = .closure (rename r c) := by
  obtain ⟨identity, formals, body, env⟩ := c
  exact congrArg (fun formals => Value.closure ⟨identity, formals, body.rename r, r.env env⟩)
    (renameArgs_eq formals)

@[simp] theorem rename_builtin (identity : Identity) (b : Builtin) :
    rename r (Value.builtin identity b) = .builtin identity (b.exchange r) := rfl

@[simp] theorem rename_promise (id : PromiseId) :
    rename r (Value.promise id) = .promise (r.promise id) := rfl

@[simp] theorem rename_environment (id : EnvId) :
    rename r (Value.environment id) = .environment (r.env id) := rfl

/-! ## Computations that may fail -/

section

variable {ε α β γ : Type} [Renames β] [Renames γ]

@[simp] theorem rename_ok (b : β) : rename r (Except.ok b : Except ε β) = .ok (rename r b) := rfl

@[simp] theorem rename_error (e : ε) : rename r (Except.error e : Except ε β) = .error e := rfl

/-- What comes after a computation sees its value renamed. -/
theorem bind_rename {x : Except ε β} {f g : β → Except ε γ}
    (h : ∀ b, g (rename r b) = rename r (f b)) : (rename r x >>= g) = rename r (x >>= f) := by
  cases x with
  | error e => rfl
  | ok b => exact h b

theorem mapM_rename {δ : Type} {ρ : α → δ} {f : α → Except ε β} {g : δ → Except ε β}
    (h : ∀ a, g (ρ a) = rename r (f a)) (l : List α) :
    (l.map ρ).mapM g = rename r (l.mapM f) := by
  induction l with
  | nil => rfl
  | cons a rest ih =>
    rw [List.map_cons, List.mapM_cons, List.mapM_cons, h, ih]
    cases f a with
    | error e => rfl
    | ok b => cases rest.mapM f <;> rfl

end

/-! ## Looking at values -/

variable {v : Value} {b : Builtin} {attributes : Attributes}

@[simp] theorem isMissingArg_rename : (rename r v).isMissingArg = v.isMissingArg := by
  cases v <;> simp [Value.isMissingArg]

@[simp] theorem isEllipsis_rename : (rename r v).isEllipsis = v.isEllipsis := by
  cases v <;> simp [Value.isEllipsis]

@[simp] theorem isNull_rename : (rename r v).isNull = v.isNull := by
  cases v <;> simp [Value.isNull]

@[simp] theorem isFunction_rename : (rename r v).isFunction = v.isFunction := by
  cases v <;> simp [Value.isFunction]

theorem exchange_eager (r : Renaming) (builtin : EagerBuiltin) :
    ∃ builtin', (Builtin.eager builtin).exchange r = .eager builtin' := by
  cases builtin <;> exact ⟨_, rfl⟩

@[simp] theorem typeName_rename : (rename r v).typeName = v.typeName := by
  cases v with
  | builtin identity b =>
    cases b with
    | special form => rfl
    | eager builtin =>
      obtain ⟨builtin', h⟩ := exchange_eager r builtin
      simp [Value.typeName, h]
  | vector v => rw [rename_vector]; rfl
  | _ => simp [Value.typeName]

@[simp] theorem length_value_rename : (rename r v).length = v.length := by
  cases v with
  | vector v => rw [rename_vector]; rfl
  | _ => simp [Value.length]

theorem lookup_rename {κ α : Type} [BEq κ] [Renames α] (key : κ) (entries : List (κ × α)) :
    (rename r entries).lookup key = rename r (entries.lookup key) := by
  induction entries with
  | nil => rfl
  | cons entry rest ih =>
    obtain ⟨name, value⟩ := entry
    simp only [rename_cons, rename_entry, List.lookup_cons]
    cases key == name
    · exact ih
    · rfl

@[simp] theorem get?_rename (name : Symbol) :
    (rename r attributes).get? name = rename r (attributes.get? name) :=
  lookup_rename name attributes.entries

@[simp] theorem contains_rename (name : Symbol) :
    (rename r attributes).contains name = attributes.contains name := by
  simp only [AttributeList.contains, get?_rename]
  cases attributes.get? name <;> rfl

@[simp] theorem isEmpty_rename : (rename r attributes).isEmpty = attributes.isEmpty := by
  obtain ⟨entries⟩ := attributes
  cases entries <;> rfl

@[simp] theorem extents?_rename : (rename r attributes).extents? = attributes.extents? := by
  simp only [AttributeList.extents?, get?_rename]
  cases attributes.get? .dimAttribute with
  | none => rfl
  | some value =>
    cases value with
    | vector v =>
      obtain ⟨identity, elements, own⟩ := v
      simp only [rename_some, rename_vector, rename_vec]
      cases elements <;> rfl
    | _ => simp

@[simp] theorem attributes?_rename : (rename r v).attributes? = rename r v.attributes? := by
  cases v with
  | vector v => rw [rename_vector]; rfl
  | _ => simp [Value.attributes?]

@[simp] theorem attribute?_rename (name : Symbol) :
    (rename r v).attribute? name = rename r (v.attribute? name) := by
  unfold Value.attribute?
  rw [attributes?_rename]
  cases v.attributes? with
  | none => rfl
  | some own => exact get?_rename name

@[simp] theorem isSome_rename {α : Type} [Renames α] (a : Option α) :
    (rename r a).isSome = a.isSome := by
  cases a <;> rfl

@[simp] theorem hasClassAttribute_rename :
    (rename r v).hasClassAttribute = v.hasClassAttribute := by
  simp [Value.hasClassAttribute]

@[simp] theorem implicitClass_rename : (rename r v).implicitClass = v.implicitClass := by
  cases v with
  | vector v =>
    obtain ⟨identity, elements, own⟩ := v
    rw [rename_vector]
    cases elements with
    | double xs => simp only [Value.implicitClass, rename_vec, extents?_rename]
    | _ => rfl
  | _ => simp [Value.implicitClass]

@[simp] theorem classes_rename : (rename r v).classes = v.classes := by
  simp only [Value.classes, attribute?_rename]
  cases v.attribute? .classAttribute with
  | none => simp
  | some declared =>
    cases declared with
    | vector v =>
      obtain ⟨identity, elements, own⟩ := v
      simp only [rename_some, rename_vector, rename_vec]
      cases elements <;> simp
    | _ => simp

@[simp] theorem number?_rename : (rename r v).number? = v.number? := by
  cases v with
  | vector v => obtain ⟨identity, elements, own⟩ := v; rw [rename_vector]; cases elements <;> rfl
  | _ => simp [Value.number?]

@[simp] theorem condition?_rename : (rename r v).condition? = v.condition? := by
  cases v with
  | vector v => obtain ⟨identity, elements, own⟩ := v; rw [rename_vector]; cases elements <;> rfl
  | _ => simp [Value.condition?]

@[simp] theorem singleString?_rename : (rename r v).singleString? = v.singleString? := by
  cases v with
  | vector v => obtain ⟨identity, elements, own⟩ := v; rw [rename_vector]; cases elements <;> rfl
  | _ => simp [Value.singleString?]

@[simp] theorem nameText?_rename : (rename r v).nameText? = v.nameText? := by
  cases v with
  | symbol name => rfl
  | vector v => obtain ⟨identity, elements, own⟩ := v; rw [rename_vector]; cases elements <;> rfl
  | _ => simp [Value.nameText?, Value.singleString?]

end Renaming

end CallByNeed
