import CallByNeed.Proofs.Matching.Passes
import Mathlib.Data.List.Sort

/-!
# The rules of matching

Matching gives an argument to a formal for one of three reasons: its tag is the
name of the formal (`Names`), its tag only begins that name (`Begins`), or it has
no tag and the formal is the next one in line (`free`, `untagged`).  `Assigns`
says that an assignment follows these three rules and no other.  The first two
passes make the pairs that the first two rules ask for.
-/

namespace CallByNeed.Matching

/-- The tag of the argument at a position. -/
def tagAt (args : ArgList) (i : Nat) : Option Symbol := args[i]?.bind (·.tag)

section Specification

variable (formals actuals : ArgList)

/-- The formal at position `i` is the first `...`. -/
def IsEllipsis (i : Nat) : Prop :=
  tagAt formals i = some .ellipsis ∧ ∀ j < i, tagAt formals j ≠ some .ellipsis

/-- There is a formal at position `i`, and it is not the first `...`. -/
def IsOrdinary (i : Nat) : Prop := i < formals.length ∧ ¬ IsEllipsis formals i

/-- There is a formal at position `i`, and the first `...`, if there is one, comes later. -/
def IsLeading (i : Nat) : Prop :=
  i < formals.length ∧ ∀ j ≤ i, tagAt formals j ≠ some .ellipsis

/-- The formal at position `i` is the first ordinary one called `tag`. -/
def IsFirstNamed (tag : Symbol) (i : Nat) : Prop :=
  IsOrdinary formals i ∧ tagAt formals i = some tag ∧
    ∀ j < i, IsOrdinary formals j → tagAt formals j ≠ some tag

/-- The actual at position `a` is tagged with the name of the ordinary formal at `i`, which is the
    first one of that name. -/
def Names (a i : Nat) : Prop := ∃ tag ∈ tagAt actuals a, IsFirstNamed formals tag i

/-- The actual at position `a` names no formal, but its tag begins the name of the leading formal at
    `i`, which no actual names. -/
def Begins (a i : Nat) : Prop :=
  IsLeading formals i ∧
    (∃ tag ∈ tagAt actuals a, ∃ name ∈ tagAt formals i, name.startsWith tag = true) ∧
    (∀ j < formals.length, ¬ Names formals actuals a j) ∧
    ∀ b < actuals.length, ¬ Names formals actuals b i

/-- The leading formal at `i` is left for an actual without tag. -/
def IsFree (i : Nat) : Prop :=
  IsLeading formals i ∧
    ∀ a < actuals.length, ¬ Names formals actuals a i ∧ ¬ Begins formals actuals a i

instance (i : Nat) : Decidable (IsEllipsis formals i) := inferInstanceAs (Decidable (_ ∧ _))

instance (i : Nat) : Decidable (IsOrdinary formals i) := inferInstanceAs (Decidable (_ ∧ _))

instance (i : Nat) : Decidable (IsLeading formals i) := inferInstanceAs (Decidable (_ ∧ _))

instance (tag : Symbol) (i : Nat) : Decidable (IsFirstNamed formals tag i) :=
  inferInstanceAs (Decidable (_ ∧ _ ∧ _))

instance (a i : Nat) : Decidable (Names formals actuals a i) :=
  inferInstanceAs (Decidable (∃ tag ∈ tagAt actuals a, _))

instance (a i : Nat) : Decidable (Begins formals actuals a i) :=
  inferInstanceAs (Decidable (_ ∧ _ ∧ _ ∧ _))

instance (i : Nat) : Decidable (IsFree formals actuals i) := inferInstanceAs (Decidable (_ ∧ _))

/-- The positions of the formals that are left for actuals without tag, in ascending order. -/
def free : List Nat := (List.range formals.length).filter (IsFree formals actuals ·)

/-- The positions of the actuals without tag, in ascending order. -/
def untagged : List Nat := (List.range actuals.length).filter (tagAt actuals · = none)

/-- An assignment of actuals to formals, both known by their positions, that follows the rules of
    matching. -/
structure Assigns (σ : Nat → Option Nat) : Prop where
  ordinary : ∀ {i a}, σ i = some a → IsOrdinary formals i ∧ a < actuals.length
  injective : ∀ {i j a}, σ i = some a → σ j = some a → i = j
  /-- An actual tagged with the name of ordinary formals goes to the first of them. -/
  exact : ∀ {i a}, Names formals actuals a i → σ i = some a
  /-- Every other tagged actual goes to the leading formal whose name it begins, if there is one
      that no actual names. -/
  beginning : ∀ {i a}, Begins formals actuals a i → σ i = some a
  /-- The untagged actuals go to the leading formals that are still free, both in order. -/
  positional : ∀ {k i : Nat}, (free formals actuals)[k]? = some i →
    σ i = (untagged actuals)[k]?
  /-- Behind the first `...` a formal receives nothing but an actual that names it. -/
  trailing : ∀ {i a}, σ i = some a → ¬ IsLeading formals i → Names formals actuals a i
  /-- There is no other reason to receive an actual. -/
  source : ∀ {i a}, σ i = some a →
    Names formals actuals a i ∨ Begins formals actuals a i ∨
      i ∈ free formals actuals ∧ a ∈ untagged actuals

/-- The actuals that no formal received, in their order. -/
def collected (σ : Nat → Option Nat) : ArgList :=
  (actuals.zipIdx.filter fun actual => ∀ i < formals.length, σ i ≠ some actual.2).map (·.1)

/-- What the formal at position `i` is bound to. -/
def assigned (σ : Nat → Option Nat) (i : Nat) : Value :=
  if IsEllipsis formals i then .dots (collected formals actuals σ)
  else ((σ i).bind (actuals[·]?)).elim .missingArg (·.value)

end Specification

variable {formals actuals : ArgList} {named found pairs : Pairing} {i j a : Nat} {tag : Symbol}

/-! ## Formals -/

theorem tagAt_of_getElem? {args : ArgList} {arg : Arg Value} (h : args[i]? = some arg) :
    tagAt args i = arg.tag := by
  simp [tagAt, h]

theorem tagAt_eq_some_iff {args : ArgList} :
    tagAt args i = some tag ↔ ∃ arg, args[i]? = some arg ∧ arg.tag = some tag :=
  Option.bind_eq_some_iff

theorem lt_length_of_tagAt {args : ArgList} (h : tagAt args i = some tag) : i < args.length := by
  obtain ⟨arg, harg, -⟩ := tagAt_eq_some_iff.1 h
  exact (List.getElem?_eq_some_iff.1 harg).1

theorem isEllipsis_iff : IsEllipsis formals i ↔ ellipsisIndex? formals = some i := by
  simp only [ellipsisIndex?, ArgList.positionOf?, List.findIdx?_eq_some_iff_getElem, IsEllipsis,
    beq_iff_eq]
  constructor
  · intro ⟨hhere, hbefore⟩
    have hi := lt_length_of_tagAt hhere
    refine ⟨hi, ?_, fun j hj => ?_⟩
    · rwa [tagAt_of_getElem? (List.getElem?_eq_getElem hi)] at hhere
    · have hne := hbefore j hj
      rwa [tagAt_of_getElem? (List.getElem?_eq_getElem (Nat.lt_trans hj hi))] at hne
  · intro ⟨hi, hhere, hbefore⟩
    refine ⟨?_, fun j hj => ?_⟩
    · rwa [tagAt_of_getElem? (List.getElem?_eq_getElem hi)]
    · rw [tagAt_of_getElem? (List.getElem?_eq_getElem (Nat.lt_trans hj hi))]
      exact hbefore j hj

theorem IsLeading.isOrdinary (h : IsLeading formals i) : IsOrdinary formals i :=
  ⟨h.1, fun hellipsis => h.2 i (Nat.le_refl i) hellipsis.1⟩

theorem mem_ordinary {formal : Arg Value} :
    (formal, i) ∈ ordinary formals ↔ formals[i]? = some formal ∧ IsOrdinary formals i := by
  simp only [ordinary, List.mem_filter, List.mem_zipIdx_iff_getElem?, bne_iff_ne, ne_eq,
    IsOrdinary, isEllipsis_iff, eq_comm (a := some i)]
  constructor
  · intro ⟨hformal, hne⟩
    exact ⟨hformal, (List.getElem?_eq_some_iff.1 hformal).1, hne⟩
  · intro ⟨hformal, _, hne⟩
    exact ⟨hformal, hne⟩

theorem mem_leading {formal : Arg Value} :
    (formal, i) ∈ leading formals ↔ formals[i]? = some formal ∧ IsLeading formals i := by
  cases hellipsis : ellipsisIndex? formals with
  -- without ellipsis every formal comes before it
  | none =>
    have hnone (j : Nat) : tagAt formals j ≠ some .ellipsis := by
      intro htag
      obtain ⟨arg, harg, htag⟩ := tagAt_eq_some_iff.1 htag
      have := List.findIdx?_eq_none_iff.1 hellipsis arg (List.mem_of_getElem? harg)
      simp [htag] at this
    simp only [leading, hellipsis, List.mem_zipIdx_iff_getElem?, IsLeading]
    constructor
    · intro hformal
      exact ⟨hformal, (List.getElem?_eq_some_iff.1 hformal).1, fun j _ => hnone j⟩
    · exact And.left
  | some e =>
    have he := isEllipsis_iff.2 hellipsis
    have htake : (formal, i) ∈ formals.zipIdx.take e ↔ i < e ∧ formals[i]? = some formal := by
      simp only [List.mem_iff_getElem?, List.getElem?_take, List.getElem?_zipIdx]
      constructor
      · intro ⟨k, hk⟩
        split at hk
        · simp at hk
          grind
        · cases hk
      · intro ⟨hlt, hformal⟩
        exact ⟨i, by simp [hlt, hformal]⟩
    simp only [leading, hellipsis, htake, IsLeading]
    constructor
    · intro ⟨hlt, hformal⟩
      refine ⟨hformal, (List.getElem?_eq_some_iff.1 hformal).1, fun j hj => ?_⟩
      exact he.2 j (by omega)
    · intro ⟨hformal, _, hbefore⟩
      refine ⟨?_, hformal⟩
      by_contra hge
      exact hbefore e (by omega) he.1

theorem mem_free : i ∈ free formals actuals ↔ IsFree formals actuals i := by
  simp only [free, List.mem_filter, List.mem_range, decide_eq_true_eq]
  exact ⟨And.right, fun h => ⟨h.1.1, h⟩⟩

theorem mem_untagged : a ∈ untagged actuals ↔ a < actuals.length ∧ tagAt actuals a = none := by
  simp [untagged]

theorem nodup_free (formals actuals : ArgList) : (free formals actuals).Nodup :=
  List.nodup_range.filter _

theorem nodup_untagged (actuals : ArgList) : (untagged actuals).Nodup :=
  List.nodup_range.filter _

theorem IsFirstNamed.unique (hi : IsFirstNamed formals tag i) (hj : IsFirstNamed formals tag j) :
    i = j := by
  obtain ⟨hi, hitag, hifirst⟩ := hi
  obtain ⟨hj, hjtag, hjfirst⟩ := hj
  have hij : ¬ j < i := fun hlt => hifirst j hlt hj hjtag
  have hji : ¬ i < j := fun hlt => hjfirst i hlt hi hitag
  omega

theorem pairwise_zipIdx (args : ArgList) : args.zipIdx.Pairwise fun x y => x.2 < y.2 := by
  rw [← List.pairwise_map (f := Prod.snd), List.zipIdx_map_snd]
  exact List.pairwise_lt_range'

theorem pairwise_ordinary (formals : ArgList) :
    (ordinary formals).Pairwise fun x y => x.2 < y.2 :=
  (pairwise_zipIdx formals).filter _

theorem isFirstNamed_of_namedFormal? (h : namedFormal? formals tag = some i) :
    IsFirstNamed formals tag i := by
  obtain ⟨⟨formal, position⟩, hfind, hposition⟩ := Option.map_eq_some_iff.1 h
  obtain rfl : position = i := hposition
  obtain ⟨htag, before, after, hsplit, hbefore⟩ := List.find?_eq_some_iff_append.1 hfind
  have hmem : (formal, position) ∈ ordinary formals := by simp [hsplit]
  obtain ⟨hformal, hordinary⟩ := mem_ordinary.1 hmem
  refine ⟨hordinary, tagAt_eq_some_iff.2 ⟨formal, hformal, by simpa using htag⟩,
    fun j hlt hj hjtag => ?_⟩
  -- an earlier formal stands before the one that was found, and was passed over
  obtain ⟨other, hother, hothertag⟩ := tagAt_eq_some_iff.1 hjtag
  have hotherMem : (other, j) ∈ ordinary formals := mem_ordinary.2 ⟨hother, hj⟩
  have hsorted := pairwise_ordinary formals
  rw [hsplit] at hotherMem hsorted
  obtain hleft | hright := List.mem_append.1 hotherMem
  · simpa [hothertag] using hbefore _ hleft
  · obtain heq | hlater := List.mem_cons.1 hright
    · cases heq
      omega
    · have := (List.pairwise_cons.1 (List.pairwise_append.1 hsorted).2.1).1 _ hlater
      simp at this
      omega

theorem namedFormal?_eq_some_iff :
    namedFormal? formals tag = some i ↔ IsFirstNamed formals tag i := by
  refine ⟨isFirstNamed_of_namedFormal?, fun h => ?_⟩
  obtain ⟨formal, hformal, htag⟩ := tagAt_eq_some_iff.1 h.2.1
  have hmem : (formal, i) ∈ ordinary formals := mem_ordinary.2 ⟨hformal, h.1⟩
  have hsome : (namedFormal? formals tag).isSome := by
    simp only [namedFormal?, Option.isSome_map, List.find?_isSome]
    exact ⟨_, hmem, by simp [htag]⟩
  obtain ⟨j, hj⟩ := Option.isSome_iff_exists.1 hsome
  rw [hj, (isFirstNamed_of_namedFormal? hj).unique h]

theorem Names.unique (hi : Names formals actuals a i) (hj : Names formals actuals a j) : i = j := by
  obtain ⟨tag, htag, hi⟩ := hi
  obtain ⟨other, hother, hj⟩ := hj
  obtain rfl : tag = other := Option.some.inj (htag.symm.trans hother)
  exact hi.unique hj

theorem Names.lt_length (h : Names formals actuals a i) : a < actuals.length := by
  obtain ⟨tag, htag, -⟩ := h
  exact lt_length_of_tagAt htag

theorem Begins.lt_length (h : Begins formals actuals a i) : a < actuals.length := by
  obtain ⟨-, ⟨tag, htag, -⟩, -⟩ := h
  exact lt_length_of_tagAt htag

theorem Names.not_untagged (h : Names formals actuals a i) (k : Nat) :
    (untagged actuals)[k]? ≠ some a := by
  intro hk
  obtain ⟨tag, htag, -⟩ := h
  rw [(mem_untagged.1 (List.mem_of_getElem? hk)).2] at htag
  cases htag

theorem Begins.not_untagged (h : Begins formals actuals a i) (k : Nat) :
    (untagged actuals)[k]? ≠ some a := by
  intro hk
  obtain ⟨-, ⟨tag, htag, -⟩, -⟩ := h
  rw [(mem_untagged.1 (List.mem_of_getElem? hk)).2] at htag
  cases htag

theorem Names.isOrdinary (h : Names formals actuals a i) : IsOrdinary formals i := by
  obtain ⟨tag, -, h⟩ := h
  exact h.1

/-! ## The pairs of the three passes -/

/-- Some pair gives the actual at `a` to the formal at `i`. -/
def Pairing.Gives (pairs : Pairing) (a i : Nat) : Prop :=
  ∃ p ∈ pairs, p.formal = i ∧ p.actual = a

theorem Pairing.hasFormal_iff_gives : pairs.hasFormal i = true ↔ ∃ a, pairs.Gives a i := by
  simp [Gives, hasFormal]

theorem Pairing.hasActual_iff_gives : pairs.hasActual a = true ↔ ∃ i, pairs.Gives a i := by
  simp [Gives, hasActual]

theorem gives_of_pairByName (h : pairByName formals actuals.zipIdx [] = .ok named) :
    named.Gives a i ↔ Names formals actuals a i := by
  rw [pairByName_eq h]
  simp only [Pairing.Gives, List.append_nil, List.mem_reverse, List.mem_filterMap, Prod.exists,
    List.mem_zipIdx_iff_getElem?, exactPair?_eq_some_iff, namedFormal?_eq_some_iff]
  constructor
  · rintro ⟨p, ⟨actual, position, hactual, tag, htag, hnamed, rfl, -⟩, rfl, rfl⟩
    exact ⟨tag, tagAt_eq_some_iff.2 ⟨actual, hactual, htag⟩, hnamed⟩
  · rintro ⟨tag, htag, hnamed⟩
    obtain ⟨actual, hactual, htag⟩ := tagAt_eq_some_iff.1 htag
    exact ⟨⟨i, a, actual.value⟩, ⟨actual, a, hactual, tag, htag, hnamed, rfl, rfl⟩, rfl, rfl⟩

/-- The candidates of an actual that the first pass left over are the formals whose names it
    begins. -/
theorem mem_candidates_iff_begins (hname : pairByName formals actuals.zipIdx [] = .ok named)
    {actual : Arg Value} (hactual : actuals[a]? = some actual) (htag : actual.tag = some tag)
    (hnew : named.hasActual a = false) :
    (∃ name, (name, i) ∈ candidates formals named tag) ↔ Begins formals actuals a i := by
  have hnames (b j : Nat) := gives_of_pairByName (a := b) (i := j) hname
  have hnew' : ∀ j < formals.length, ¬ Names formals actuals a j := by
    intro j _ hj
    have := Pairing.hasActual_iff_gives.2 ⟨j, (hnames a j).2 hj⟩
    simp [hnew] at this
  -- a formal is free after the first pass if nobody has its name in full
  have hfree : named.hasFormal i = false ↔ ∀ b < actuals.length, ¬ Names formals actuals b i := by
    rw [Bool.eq_false_iff, ne_eq, Pairing.hasFormal_iff_gives]
    simp only [hnames, not_exists]
    exact ⟨fun h b _ => h b, fun h b hb => h b hb.lt_length hb⟩
  simp only [mem_candidates, mem_leading, hfree, Begins, tagAt_of_getElem? hactual, htag]
  constructor
  · rintro ⟨name, formal, ⟨hformal, hleading⟩, hformaltag, hstarts, hunnamed⟩
    refine ⟨hleading, ⟨tag, rfl, name, ?_, hstarts⟩, hnew', hunnamed⟩
    exact tagAt_eq_some_iff.2 ⟨formal, hformal, hformaltag⟩
  · rintro ⟨hleading, ⟨other, hother, name, hname, hstarts⟩, -, hunnamed⟩
    obtain rfl : tag = other := Option.some.inj hother
    obtain ⟨formal, hformal, hformaltag⟩ := tagAt_eq_some_iff.1 hname
    exact ⟨name, formal, ⟨hformal, hleading⟩, hformaltag, hstarts, hunnamed⟩

/-- An actual that begins the name of a formal has no other candidate, or the second pass would have
    failed. -/
theorem candidates_of_begins (hname : pairByName formals actuals.zipIdx [] = .ok named)
    (hbegun : pairByPrefix formals named actuals.zipIdx named = .ok found)
    (hbegins : Begins formals actuals a i) :
    ∃ actual tag name, actuals[a]? = some actual ∧ actual.tag = some tag ∧
      named.hasActual a = false ∧ candidates formals named tag = [(name, i)] := by
  obtain ⟨tag, htag, -⟩ := hbegins.2.1
  obtain ⟨actual, hactual, htag⟩ := tagAt_eq_some_iff.1 htag
  have hnew : named.hasActual a = false := by
    rw [Bool.eq_false_iff, ne_eq, Pairing.hasActual_iff_gives]
    rintro ⟨j, hj⟩
    have hnames := (gives_of_pairByName hname).1 hj
    exact hbegins.2.2.1 j hnames.isOrdinary.1 hnames
  obtain ⟨name, hmem⟩ := (mem_candidates_iff_begins hname hactual htag hnew).2 hbegins
  exact ⟨actual, tag, name, hactual, htag, hnew,
    eq_of_mem_candidates hbegun (List.mem_zipIdx_iff_getElem?.2 hactual) hnew htag hmem⟩

theorem gives_of_pairByPrefix (hname : pairByName formals actuals.zipIdx [] = .ok named)
    (hbegun : pairByPrefix formals named actuals.zipIdx named = .ok found) :
    found.Gives a i ↔ Names formals actuals a i ∨ Begins formals actuals a i := by
  rw [← gives_of_pairByName hname]
  -- what the second pass adds is what `prefixPair?` answers for each actual
  have hsplit : found.Gives a i ↔
      named.Gives a i ∨ ∃ actual, actuals[a]? = some actual ∧
        ∃ p, prefixPair? formals named (actual, a) = some p ∧ p.formal = i := by
    rw [pairByPrefix_eq hbegun]
    simp only [Pairing.Gives, List.mem_append, List.mem_reverse, List.mem_filterMap, Prod.exists,
      List.mem_zipIdx_iff_getElem?]
    constructor
    · rintro ⟨p, ⟨actual, position, hactual, hp⟩ | hp, rfl, rfl⟩
      · obtain ⟨-, -, -, -, -, rfl, -⟩ := prefixPair?_eq_some_iff.1 hp
        exact .inr ⟨actual, hactual, p, hp, rfl⟩
      · exact .inl ⟨p, hp, rfl, rfl⟩
    · rintro (⟨p, hp, hi, ha⟩ | ⟨actual, hactual, p, hp, hi⟩)
      · exact ⟨p, .inr hp, hi, ha⟩
      · obtain ⟨-, -, -, -, -, ha, -⟩ := prefixPair?_eq_some_iff.1 hp
        exact ⟨p, .inl ⟨actual, a, hactual, hp⟩, hi, ha⟩
  rw [hsplit]
  refine or_congr_right ?_
  constructor
  · rintro ⟨actual, hactual, p, hp, rfl⟩
    obtain ⟨hnew, tag, name, htag, hone, -, -⟩ := prefixPair?_eq_some_iff.1 hp
    exact (mem_candidates_iff_begins hname hactual htag hnew).1 ⟨name, by simp [hone]⟩
  · intro hbegins
    obtain ⟨actual, tag, name, hactual, htag, hnew, hone⟩ :=
      candidates_of_begins hname hbegun hbegins
    exact ⟨actual, hactual, ⟨i, a, actual.value⟩,
      prefixPair?_eq_some_iff.2 ⟨hnew, tag, name, htag, hone, rfl, rfl⟩, rfl⟩

theorem Begins.unique (hname : pairByName formals actuals.zipIdx [] = .ok named)
    (hbegun : pairByPrefix formals named actuals.zipIdx named = .ok found)
    (hi : Begins formals actuals a i) (hj : Begins formals actuals a j) : i = j := by
  obtain ⟨actual, tag, _, hactual, htag, -, hone⟩ := candidates_of_begins hname hbegun hi
  obtain ⟨other, tag', _, hother, htag', -, hone'⟩ := candidates_of_begins hname hbegun hj
  obtain rfl : actual = other := Option.some.inj (hactual.symm.trans hother)
  obtain rfl : tag = tag' := Option.some.inj (htag.symm.trans htag')
  simp only [hone, List.cons.injEq, Prod.mk.injEq, and_true] at hone'
  exact hone'.2

end CallByNeed.Matching
