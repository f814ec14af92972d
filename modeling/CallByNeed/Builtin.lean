import CallByNeed.Arithmetic.Operator

/-!
# Builtin functions

The vocabulary of primitive functions.  A special form receives its arguments
unevaluated, an eager builtin receives their values.  `Builtin.base` lists the
ones that every session starts with; `Builtin.introspective` lists further ones
that look into the running session and that a host may bind as well.

`Builtin.loopOp?` says which builtins a loop may replace by an operation on whole
vectors.
-/

namespace CallByNeed

/-- A primitive whose arguments arrive unevaluated. -/
inductive SpecialForm where
  | quote
  | function
  | assign
  | assignEquals
  | assignOuter
  | block
  | ifElse
  | forLoop
  | returnValue
  | missing
  | useMethod
  /-- The call as received together with the calling environment. -/
  | receivedCall
  deriving DecidableEq, Repr

/-- A reduction of a vector to one number. -/
inductive Reduction where
  | sum
  | mean
  deriving DecidableEq, Repr

/-- A reduction of a matrix to one number for each row or column. -/
inductive Margin where
  | rowMeans
  | colSums
  deriving DecidableEq, Repr

inductive NamespaceQuery where
  | registerMethod
  | load
  | isNamespace
  | loaded
  | nameOf
  | exportsOf
  | importsOf
  | lookUp
  deriving DecidableEq, Repr

inductive Introspection where
  | depth
  | arguments
  | collect
  | frame
  deriving DecidableEq, Repr

/-- A primitive whose arguments arrive as values. -/
inductive EagerBuiltin where
  | arithmetic (op : BinaryOp)
  | compare (op : Comparison)
  | sequence
  | combine
  | length
  | math (f : MathFunction)
  | reduce (op : Reduction)
  | margin (op : Margin)
  | withAttributes
  | attributeOf
  | classOf
  | environmentOf
  | namespaces (query : NamespaceQuery)
  | introspect (query : Introspection)
  deriving DecidableEq, Repr

inductive Builtin where
  | special (form : SpecialForm)
  | eager (builtin : EagerBuiltin)
  deriving DecidableEq, Repr

/-- What a loop may put in the place of a builtin. -/
inductive LoopOp where
  | unary (op : UnaryOp)
  | binary (op : BinaryOp)
  | computation (name : String)
  | assign
  | block
  deriving DecidableEq, Repr

def Reduction.name : Reduction → String
  | sum => "sum"
  | mean => "mean"

def Margin.name : Margin → String
  | rowMeans => "rowMeans"
  | colSums => "colSums"

def SpecialForm.name : SpecialForm → String
  | quote => "quote"
  | function => "function"
  | assign => "<-"
  | assignEquals => "="
  | assignOuter => "<<-"
  | block => "\x7b"
  | ifElse => "if"
  | forLoop => "for"
  | returnValue => "return"
  | missing => "missing"
  | useMethod => "UseMethod"
  | receivedCall => "host_call"

def NamespaceQuery.name : NamespaceQuery → String
  | registerMethod => "registerS3method"
  | load => "getNamespace"
  | isNamespace => "isNamespace"
  | loaded => "loadedNamespaces"
  | nameOf => "getNamespaceName"
  | exportsOf => "getNamespaceExports"
  | importsOf => "getNamespaceImports"
  | lookUp => "getRegisteredNamespace"

def Introspection.name : Introspection → String
  | depth => "host_depth"
  | arguments => "host_args"
  | collect => "host_gc"
  | frame => "host_frame"

def EagerBuiltin.name : EagerBuiltin → String
  | arithmetic op => op.spelling
  | compare op => op.spelling
  | sequence => ":"
  | combine => "c"
  | length => "length"
  | math f => f.name
  | reduce op => op.name
  | margin op => op.name
  | withAttributes => "structure"
  | attributeOf => "attr"
  | classOf => "class"
  | environmentOf => "environment"
  | namespaces query => query.name
  | introspect query => query.name

namespace Builtin

def name : Builtin → String
  | special form => form.name
  | eager builtin => builtin.name

def isSpecial : Builtin → Bool
  | special _ => true
  | eager _ => false

/-- The operation that a loop may put in the place of the builtin. -/
def loopOp? : Builtin → Option LoopOp
  | special .assign => some .assign
  | special .block => some .block
  | eager (.arithmetic op) => some (.binary op)
  | eager (.math f) => some (.unary (.math f))
  | eager (.reduce op) => some (.computation op.name)
  | eager (.margin op) => some (.computation op.name)
  | _ => none

/-- The builtins that every session starts with. -/
def base : List Builtin :=
  [SpecialForm.quote, .function, .assign, .assignEquals, .assignOuter, .block, .ifElse, .forLoop,
      .returnValue, .missing, .useMethod].map special
    ++ BinaryOp.all.map (eager ∘ .arithmetic)
    ++ Comparison.all.map (eager ∘ .compare)
    ++ [eager .sequence, eager .combine, eager .length]
    ++ MathFunction.all.map (eager ∘ .math)
    ++ [Reduction.sum, .mean].map (eager ∘ .reduce)
    ++ [Margin.rowMeans, .colSums].map (eager ∘ .margin)
    ++ [EagerBuiltin.withAttributes, .attributeOf, .classOf, .environmentOf].map eager
    ++ [NamespaceQuery.registerMethod, .load, .isNamespace, .loaded, .nameOf, .exportsOf,
      .importsOf, .lookUp].map (eager ∘ .namespaces)

/-- Further builtins that a host may bind to look into the session. -/
def introspective : List Builtin :=
  [Introspection.depth, .arguments, .collect, .frame].map (eager ∘ .introspect)
    ++ [special .receivedCall]

def inspect (b : Builtin) : String := "<builtin `" ++ b.name ++ "`>"

theorem nodup_base_names : (base.map name).Nodup := by decide

end Builtin

end CallByNeed
