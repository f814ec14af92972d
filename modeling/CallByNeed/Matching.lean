import CallByNeed.Error

/-!
# Argument matching

The arguments of a call are paired with the formals of a function in three
passes.  An argument whose tag is the name of a formal goes to it
(`pairByName`).  A tag that only begins the name of a formal goes to that formal
if there is just one (`pairByPrefix`).  The untagged arguments fill what is left
in order (`pairByPosition`).

The first formal called `...` collects whatever no other formal took.  Formals
after it are paired by their whole name only; the others are called ordinary
here too, as long as they are not that first `...`.
-/

namespace CallByNeed.Matching

/-- An argument given to a formal; both are named by their positions. -/
structure Pair where
  formal : Nat
  actual : Nat
  value : Value

/-- The pairs found so far. -/
abbrev Pairing := List Pair

def Pairing.hasFormal (pairs : Pairing) (i : Nat) : Bool := pairs.any (·.formal == i)

def Pairing.hasActual (pairs : Pairing) (i : Nat) : Bool := pairs.any (·.actual == i)

def Pairing.valueOf? (pairs : Pairing) (i : Nat) : Option Value :=
  (pairs.find? (·.formal == i)).map (·.value)

/-- The position of the first `...` among the formals. -/
def ellipsisIndex? (formals : ArgList) : Option Nat :=
  ArgList.positionOf? formals .ellipsis

/-- The formals that are not the first `...`, with their positions. -/
def ordinary (formals : ArgList) : List (Arg Value × Nat) :=
  formals.zipIdx.filter fun formal => some formal.2 != ellipsisIndex? formals

/-- The formals in front of the first `...`, with their positions. -/
def leading (formals : ArgList) : List (Arg Value × Nat) :=
  match ellipsisIndex? formals with
  | some i => formals.zipIdx.take i
  | none => formals.zipIdx

/-- The position of the first ordinary formal of this name. -/
def namedFormal? (formals : ArgList) (tag : Symbol) : Option Nat :=
  ((ordinary formals).find? (·.1.tag == some tag)).map (·.2)

/-- The first pass: arguments whose tag is the name of an ordinary formal. -/
def pairByName (formals : ArgList) :
    List (Arg Value × Nat) → Pairing → Except EvalError Pairing
  | [], pairs => .ok pairs
  | (actual, position) :: rest, pairs =>
    match actual.tag with
    | none => pairByName formals rest pairs
    | some tag =>
      match namedFormal? formals tag with
      | none => pairByName formals rest pairs
      | some formal =>
        if pairs.hasFormal formal then .error (.multipleMatch tag)
        else pairByName formals rest (⟨formal, position, actual.value⟩ :: pairs)

/-- The leading formals that `tag` begins and that no argument has named in full. -/
def candidates (formals : ArgList) (named : Pairing) (tag : Symbol) : List (Symbol × Nat) :=
  (leading formals).filterMap fun (formal, i) =>
    match formal.tag with
    | some name => if name.startsWith tag && !named.hasFormal i then some (name, i) else none
    | none => none

/-- The second pass: arguments whose tag begins the name of one leading formal. -/
def pairByPrefix (formals : ArgList) (named : Pairing) :
    List (Arg Value × Nat) → Pairing → Except EvalError Pairing
  | [], pairs => .ok pairs
  | (actual, position) :: rest, pairs =>
    if named.hasActual position then pairByPrefix formals named rest pairs
    else
      match actual.tag with
      | none => pairByPrefix formals named rest pairs
      | some tag =>
        match candidates formals named tag with
        | [] => pairByPrefix formals named rest pairs
        | [(name, formal)] =>
          if pairs.hasFormal formal then .error (.multipleMatch name)
          else pairByPrefix formals named rest (⟨formal, position, actual.value⟩ :: pairs)
        | several => .error (.partialMatchAmbiguous tag (several.map (·.1)))

/-- The third pass: untagged arguments fill the leading formals that are still free, in order. -/
def pairByPosition (formals : ArgList) (actuals : List (Arg Value × Nat)) (pairs : Pairing) :
    Pairing :=
  let free := (leading formals).filter fun formal => !pairs.hasFormal formal.2
  let waiting := actuals.filter fun actual => actual.1.tag.isNone && !pairs.hasActual actual.2
  (free.zip waiting).map (fun (formal, actual) => ⟨formal.2, actual.2, actual.1.value⟩) ++ pairs

def pair (formals actuals : ArgList) : Except EvalError Pairing := do
  let named ← pairByName formals actuals.zipIdx []
  let pairs ← pairByPrefix formals named actuals.zipIdx named
  return pairByPosition formals actuals.zipIdx pairs

/-- The arguments that no formal took, with their positions. -/
def leftover (actuals : ArgList) (pairs : Pairing) : List (Arg Value × Nat) :=
  actuals.zipIdx.filter fun actual => !pairs.hasActual actual.2

/-- The argument for each formal, in the order of the formals.  A formal without argument gets the
    missing sentinel; unless `populate` is on, it must then have a default expression. -/
def fill (formals actuals : ArgList) (pairs : Pairing) (populate : Bool) :
    Except EvalError ArgList :=
  formals.zipIdx.mapM fun (formal, i) =>
    if some i == ellipsisIndex? formals then
      .ok (.new formal.tag (.dots ((leftover actuals pairs).map (·.1))))
    else
      match pairs.valueOf? i with
      | some value => .ok (.new formal.tag value)
      | none =>
        if !populate && formal.value.isMissingArg then
          .error (.unmatchedArgument (formal.tag.getD .missing))
        else .ok (.new formal.tag .missingArg)

end CallByNeed.Matching

namespace CallByNeed

open Matching in
def matchFormals (formals actuals : ArgList) (populate : Bool) : Except EvalError ArgList := do
  let pairs ← pair formals actuals
  match ellipsisIndex? formals, leftover actuals pairs with
  | none, (actual, position) :: _ => .error (.unusedArgument actual.tag position)
  | _, _ => fill formals actuals pairs populate

end CallByNeed
