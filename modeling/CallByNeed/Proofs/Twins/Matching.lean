import CallByNeed.Matching
import CallByNeed.Proofs.Twins.Renaming

/-!
# Matching renamed arguments

Pairing arguments with formals looks at tags and positions only, so renamed
arguments are paired like the arguments themselves
(`Matching.matchFormals_rename`), pass by pass.
-/

namespace CallByNeed

instance : Renames Matching.Pair := ⟨fun r pair => { pair with value := rename r pair.value }⟩

namespace Matching

open Renaming

variable {r : Renaming} {formals actuals : ArgList} {named : Pairing}

/-- Arguments with their positions, renamed. -/
def renameAt (r : Renaming) (args : List (Arg Value × Nat)) : List (Arg Value × Nat) :=
  args.map fun arg => (rename r arg.1, arg.2)

theorem zipIdx_rename (args : ArgList) : (rename r args).zipIdx = renameAt r args.zipIdx := by
  rw [rename_list, List.zipIdx_map]
  rfl

theorem filter_renameAt {p : Arg Value × Nat → Bool}
    (hp : ∀ arg i, p (rename r arg, i) = p (arg, i)) (args : List (Arg Value × Nat)) :
    (renameAt r args).filter p = renameAt r (args.filter p) := by
  rw [renameAt, List.filter_map]
  exact congrArg _ (List.filter_congr fun arg _ => hp arg.1 arg.2)

@[simp] theorem ellipsisIndex?_rename :
    ellipsisIndex? (rename r formals) = ellipsisIndex? formals := by
  rw [ellipsisIndex?, ArgList.positionOf?, rename_list, List.findIdx?_map]
  rfl

@[simp] theorem ordinary_rename : ordinary (rename r formals) = renameAt r (ordinary formals) := by
  rw [ordinary, zipIdx_rename, ellipsisIndex?_rename]
  exact filter_renameAt (fun _ _ => rfl) _

@[simp] theorem leading_rename : leading (rename r formals) = renameAt r (leading formals) := by
  unfold leading
  rw [zipIdx_rename, ellipsisIndex?_rename]
  cases ellipsisIndex? formals with
  | none => rfl
  | some i => exact (List.map_take).symm

@[simp] theorem namedFormal?_rename (tag : Symbol) :
    namedFormal? (rename r formals) tag = namedFormal? formals tag := by
  rw [namedFormal?, ordinary_rename, renameAt, List.find?_map, Option.map_map]
  rfl

@[simp] theorem hasFormal_rename (pairs : Pairing) (i : Nat) :
    Pairing.hasFormal (rename r pairs) i = pairs.hasFormal i := by
  rw [Pairing.hasFormal, rename_list, List.any_map]
  rfl

@[simp] theorem hasActual_rename (pairs : Pairing) (i : Nat) :
    Pairing.hasActual (rename r pairs) i = pairs.hasActual i := by
  rw [Pairing.hasActual, rename_list, List.any_map]
  rfl

@[simp] theorem valueOf?_rename (pairs : Pairing) (i : Nat) :
    Pairing.valueOf? (rename r pairs) i = rename r (pairs.valueOf? i) := by
  rw [Pairing.valueOf?, rename_list, List.find?_map, Option.map_map]
  change _ = (Option.map _ _).map (rename r)
  rw [Option.map_map]
  rfl

theorem pairByName_rename (formals : ArgList) (waiting : List (Arg Value × Nat)) (pairs : Pairing) :
    pairByName (rename r formals) (renameAt r waiting) (rename r pairs) =
      rename r (pairByName formals waiting pairs) := by
  induction waiting generalizing pairs with
  | nil => rfl
  | cons actual rest ih =>
    obtain ⟨⟨tag, value⟩, position⟩ := actual
    cases tag with
    | none => exact ih pairs
    | some tag =>
      simp only [renameAt, List.map_cons, rename_arg, pairByName, namedFormal?_rename,
        hasFormal_rename]
      cases namedFormal? formals tag with
      | none => exact ih pairs
      | some formal =>
        dsimp only
        split
        · rfl
        · exact ih (⟨formal, position, value⟩ :: pairs)

@[simp] theorem candidates_rename (tag : Symbol) :
    candidates (rename r formals) (rename r named) tag = candidates formals named tag := by
  rw [candidates, leading_rename, renameAt, List.filterMap_map]
  congr 1
  funext formal
  simp only [Function.comp, rename_arg, hasFormal_rename]

theorem pairByPrefix_rename (formals : ArgList) (named : Pairing)
    (waiting : List (Arg Value × Nat)) (pairs : Pairing) :
    pairByPrefix (rename r formals) (rename r named) (renameAt r waiting) (rename r pairs) =
      rename r (pairByPrefix formals named waiting pairs) := by
  induction waiting generalizing pairs with
  | nil => rfl
  | cons actual rest ih =>
    obtain ⟨⟨tag, value⟩, position⟩ := actual
    simp only [renameAt, List.map_cons, rename_arg, pairByPrefix, hasActual_rename,
      candidates_rename, hasFormal_rename]
    split
    · exact ih pairs
    · cases tag with
      | none => exact ih pairs
      | some tag =>
        dsimp only
        split
        · exact ih pairs
        · rename_i name formal _
          split
          · rfl
          · exact ih (⟨formal, position, value⟩ :: pairs)
        · rfl

theorem pairByPosition_rename (formals : ArgList) (waiting : List (Arg Value × Nat))
    (pairs : Pairing) :
    pairByPosition (rename r formals) (renameAt r waiting) (rename r pairs) =
      rename r (pairByPosition formals waiting pairs) := by
  simp only [pairByPosition, leading_rename, hasFormal_rename, hasActual_rename, rename_append]
  rw [filter_renameAt (fun _ _ => rfl), filter_renameAt (fun _ _ => rfl)]
  congr 1
  rw [renameAt, renameAt, List.zip_map, List.map_map, rename_list, List.map_map]
  rfl

theorem pair_rename : pair (rename r formals) (rename r actuals) =
    rename r (pair formals actuals) := by
  unfold pair
  rw [zipIdx_rename, ← @rename_nil r Pair, pairByName_rename]
  refine bind_rename fun named => ?_
  rw [pairByPrefix_rename]
  exact bind_rename fun pairs => congrArg Except.ok (pairByPosition_rename formals _ pairs)

theorem leftover_rename (actuals : ArgList) (pairs : Pairing) :
    leftover (rename r actuals) (rename r pairs) = renameAt r (leftover actuals pairs) := by
  rw [leftover, zipIdx_rename]
  simp only [hasActual_rename]
  exact filter_renameAt (fun _ _ => rfl) _

theorem fill_rename (formals actuals : ArgList) (pairs : Pairing) (populate : Bool) :
    fill (rename r formals) (rename r actuals) (rename r pairs) populate =
      rename r (fill formals actuals pairs populate) := by
  rw [fill, zipIdx_rename, ellipsisIndex?_rename, leftover_rename]
  refine mapM_rename (fun (formal, i) => ?_) _
  dsimp only
  split
  · rw [rename_ok, renameAt, List.map_map]
    simp only [rename_arg, Arg.new, rename_dots, rename_list, List.map_map]
    rfl
  · rw [valueOf?_rename]
    cases Pairing.valueOf? pairs i with
    | some value => rfl
    | none =>
      simp only [rename_none, rename_arg, isMissingArg_rename]
      split <;> rfl

end Matching

open Matching Renaming

theorem matchFormals_rename (r : Renaming) (formals actuals : ArgList) (populate : Bool) :
    matchFormals (rename r formals) (rename r actuals) populate =
      rename r (matchFormals formals actuals populate) := by
  unfold matchFormals
  rw [pair_rename]
  refine bind_rename fun pairs => ?_
  rw [ellipsisIndex?_rename, leftover_rename, fill_rename]
  cases ellipsisIndex? formals with
  | some i => rfl
  | none => cases leftover actuals pairs <;> rfl

end CallByNeed
