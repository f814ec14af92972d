import CallByNeed.Proofs.Matching.Faults

/-!
# Named arguments in any order

The rules of matching know arguments by their positions, but what they decide
depends on the arguments themselves: a tag names a formal or begins its name
wherever the argument stands, and only arguments without tag are counted.  So two
calls with the same arguments, those without tag in the same order
(`Reordered`), are matched alike (`matchFormals_reordered`).
-/

namespace CallByNeed.Matching

/-- The same arguments in another order, in which those without tag keep theirs. -/
structure Reordered (actuals others : ArgList) : Prop where
  perm : actuals.Perm others
  untagged : actuals.filter (·.tag.isNone) = others.filter (·.tag.isNone)

theorem Reordered.symm {actuals others : ArgList} (h : Reordered actuals others) :
    Reordered others actuals :=
  ⟨h.perm.symm, h.untagged.symm⟩

/-! ## Rules without positions -/

/-- The tag of an actual is the name of the ordinary formal at `i`, the first one of that name. -/
def NamesFormal (formals : ArgList) (actual : Arg Value) (i : Nat) : Prop :=
  ∃ tag ∈ actual.tag, IsFirstNamed formals tag i

/-- The tag of an actual, which names no formal, begins the name of the leading formal at `i`, which
    none of the actuals names. -/
def BeginsFormal (formals actuals : ArgList) (actual : Arg Value) (i : Nat) : Prop :=
  IsLeading formals i ∧
    (∃ tag ∈ actual.tag, ∃ name ∈ tagAt formals i, name.startsWith tag = true) ∧
    (∀ j < formals.length, ¬ NamesFormal formals actual j) ∧
    ∀ other ∈ actuals, ¬ NamesFormal formals other i

/-- An argument whose tag gives it to some formal. -/
def IsPlaced (formals actuals : ArgList) (actual : Arg Value) : Prop :=
  ∃ i < formals.length,
    NamesFormal formals actual i ∨ BeginsFormal formals actuals actual i

instance (formals : ArgList) (actual : Arg Value) (i : Nat) :
    Decidable (NamesFormal formals actual i) :=
  inferInstanceAs (Decidable (∃ tag ∈ actual.tag, _))

instance (formals actuals : ArgList) (actual : Arg Value) (i : Nat) :
    Decidable (BeginsFormal formals actuals actual i) :=
  inferInstanceAs (Decidable (_ ∧ _ ∧ _ ∧ _))

instance (formals actuals : ArgList) (actual : Arg Value) :
    Decidable (IsPlaced formals actuals actual) :=
  inferInstanceAs (Decidable (∃ i < formals.length, _))

variable {formals actuals others : ArgList} {actual : Arg Value} {pairs : Pairing} {i j a : Nat}
  {populate : Bool}

theorem names_iff (ha : actuals[a]? = some actual) :
    Names formals actuals a i ↔ NamesFormal formals actual i := by
  rw [Names, tagAt_of_getElem? ha, NamesFormal]

theorem forall_mem_iff_forall_lt {p : Arg Value → Prop} {q : Nat → Prop}
    (h : ∀ {a actual}, actuals[a]? = some actual → (q a ↔ p actual)) :
    (∀ a < actuals.length, q a) ↔ ∀ actual ∈ actuals, p actual := by
  constructor
  · intro hq actual hmem
    obtain ⟨a, ha⟩ := List.mem_iff_getElem?.1 hmem
    exact (h ha).1 (hq a (List.getElem?_eq_some_iff.1 ha).1)
  · intro hp a ha
    exact (h (List.getElem?_eq_getElem ha)).2 (hp _ (List.getElem_mem ha))

theorem begins_iff (ha : actuals[a]? = some actual) :
    Begins formals actuals a i ↔ BeginsFormal formals actuals actual i := by
  rw [Begins, BeginsFormal, tagAt_of_getElem? ha]
  refine and_congr_right fun _ => and_congr_right fun _ => and_congr ?_ ?_
  · exact forall₂_congr fun j _ => not_congr (names_iff ha)
  · exact forall_mem_iff_forall_lt fun hb => not_congr (names_iff hb)

theorem pairwise_iff_forall_lt {R : Arg Value → Arg Value → Prop} {S : Nat → Nat → Prop}
    (h : ∀ {b a earlier later}, actuals[b]? = some earlier → actuals[a]? = some later →
      (S b a ↔ R earlier later)) :
    (∀ a < actuals.length, ∀ b < a, S b a) ↔ actuals.Pairwise R := by
  rw [List.pairwise_iff_getElem]
  constructor
  · intro hS b a hb ha hlt
    exact (h (List.getElem?_eq_getElem hb) (List.getElem?_eq_getElem ha)).1 (hS a ha b hlt)
  · intro hR a ha b hlt
    have hb := Nat.lt_trans hlt ha
    exact (h (List.getElem?_eq_getElem hb) (List.getElem?_eq_getElem ha)).2 (hR b a hb ha hlt)

/-- No formal is named twice if and only if no two actuals name the same. -/
theorem namesOnce_iff_pairwise :
    NamesOnce formals actuals ↔
      actuals.Pairwise fun x y => ∀ i, ¬ (NamesFormal formals x i ∧ NamesFormal formals y i) := by
  rw [← pairwise_iff_forall_lt (S := fun b a =>
    ∀ i, ¬ (Names formals actuals b i ∧ Names formals actuals a i)) ?_]
  · refine forall₂_congr fun a _ => ?_
    simp only [RepeatsName, not_exists, not_and]
    constructor
    · exact fun hnone b hb i hearlier hhere => hnone i hhere.isOrdinary.1 hhere b hb hearlier
    · exact fun hnone i _ hhere b hb hearlier => hnone b hb i hearlier hhere
  · intro b a earlier later hb ha
    simp only [names_iff hb, names_iff ha]

theorem begun_eq_singleton (hunique : ∀ j, Begins formals actuals a j → j = i)
    (hbegins : Begins formals actuals a i) : begun formals actuals a = [i] := by
  refine List.Pairwise.eq_of_mem_iff (r := (· < ·)) (List.pairwise_lt_range.filter _)
    (List.pairwise_singleton _ i) fun j => ?_
  rw [mem_begun, List.mem_singleton]
  exact ⟨hunique j, fun hj => hj ▸ hbegins⟩

/-- Every actual begins one name at most. -/
theorem not_isAmbiguous_iff :
    ¬ IsAmbiguous formals actuals a ↔
      ∀ i j, Begins formals actuals a i → Begins formals actuals a j → i = j := by
  simp only [← mem_begun]
  have hnodup : (begun formals actuals a).Nodup := List.nodup_range.filter _
  rw [IsAmbiguous]
  generalize begun formals actuals a = found at hnodup ⊢
  rcases found with _ | ⟨k, _ | ⟨l, more⟩⟩
  · simp
  · simp
  · refine iff_of_false (by simp) fun hunique => ?_
    have hne := (List.nodup_cons.1 hnodup).1
    rw [hunique k l (by simp) (by simp)] at hne
    simp at hne

theorem beginsOnce_iff_pairwise :
    BeginsOnce formals actuals ↔
      (∀ actual ∈ actuals, ∀ i j, BeginsFormal formals actuals actual i →
        BeginsFormal formals actuals actual j → i = j) ∧
      actuals.Pairwise fun x y =>
        ∀ i, ¬ (BeginsFormal formals actuals x i ∧ BeginsFormal formals actuals y i) := by
  -- positions are traded for the actuals there, which a reordering keeps
  rw [← forall_mem_iff_forall_lt (q := fun a =>
      ∀ i j, Begins formals actuals a i → Begins formals actuals a j → i = j) ?_,
    ← pairwise_iff_forall_lt (S := fun b a =>
      ∀ i, ¬ (Begins formals actuals b i ∧ Begins formals actuals a i)) ?_]
  · simp only [BeginsOnce, IsStuck, not_or, not_isAmbiguous_iff, not_exists, forall_and]
    refine and_congr_right fun hunique => forall₂_congr fun a ha => ?_
    constructor
    · intro hnone b hb i hboth
      have hhere := begun_eq_singleton (fun j hj => hunique a ha j i hj hboth.2) hboth.2
      have hearlier :=
        begun_eq_singleton (fun j hj => hunique b (Nat.lt_trans hb ha) j i hj hboth.1) hboth.1
      exact hnone i ⟨hhere, b, hb, hearlier⟩
    · rintro hnone i ⟨hhere, b, hb, hearlier⟩
      exact hnone b hb i ⟨mem_begun.1 (by simp [hearlier]), mem_begun.1 (by simp [hhere])⟩
  · intro b a earlier later hb ha
    simp only [begins_iff hb, begins_iff ha]
  · intro a actual ha
    simp only [begins_iff ha]

theorem Reordered.beginsFormal_iff (h : Reordered actuals others) :
    BeginsFormal formals actuals actual i ↔ BeginsFormal formals others actual i := by
  simp only [BeginsFormal, h.perm.mem_iff]

theorem Reordered.pair_ok (h : Reordered actuals others)
    (hok : ∃ pairs, pair formals actuals = .ok pairs) :
    ∃ pairs, pair formals others = .ok pairs := by
  rw [pair_ok_iff, namesOnce_iff_pairwise, beginsOnce_iff_pairwise] at hok ⊢
  obtain ⟨hnames, hunique, hbegins⟩ := hok
  simp only [h.beginsFormal_iff, h.perm.mem_iff] at hunique hbegins
  refine ⟨(h.perm.pairwise_iff ?_).1 hnames, hunique, (h.perm.pairwise_iff ?_).1 hbegins⟩
  · exact fun hnone i hboth => hnone i hboth.symm
  · exact fun hnone i hboth => hnone i hboth.symm

theorem isFree_iff :
    IsFree formals actuals i ↔
      IsLeading formals i ∧ ∀ actual ∈ actuals,
        ¬ NamesFormal formals actual i ∧ ¬ BeginsFormal formals actuals actual i :=
  and_congr_right fun _ => forall_mem_iff_forall_lt fun ha =>
    and_congr (not_congr (names_iff ha)) (not_congr (begins_iff ha))

theorem Reordered.free_eq (h : Reordered actuals others) :
    free formals actuals = free formals others := by
  refine List.filter_congr fun i _ => decide_eq_decide.2 ?_
  simp only [isFree_iff, h.beginsFormal_iff, h.perm.mem_iff]

/-! ## What a formal gets -/

theorem mem_waiting {x : Arg Value × Nat} :
    x ∈ waiting actuals ↔ actuals[x.2]? = some x.1 ∧ x.1.tag = none := by
  rw [waiting, List.mem_filter, List.mem_zipIdx_iff_getElem?, Option.isNone_iff_eq_none]

theorem map_fst_waiting :
    (waiting actuals).map Prod.fst = actuals.filter (·.tag.isNone) := by
  have : (·.tag.isNone) ∘ Prod.fst = fun actual : Arg Value × Nat => actual.1.tag.isNone := rfl
  rw [waiting, ← this, ← List.filter_map, List.zipIdx_map_fst]

/-- The formal at `i` gets an argument, wherever that one stands. -/
def Gets (formals actuals : ArgList) (i : Nat) (actual : Arg Value) : Prop :=
  actual ∈ actuals ∧ (NamesFormal formals actual i ∨ BeginsFormal formals actuals actual i) ∨
    (i, actual) ∈ (free formals actuals).zip (actuals.filter (·.tag.isNone))

theorem getElem?_of_mem_zip_waiting
    (h : (i, (actual, a)) ∈ (free formals actuals).zip (waiting actuals)) :
    actuals[a]? = some actual :=
  (mem_waiting.1 (List.of_mem_zip h).2).1

theorem gets_iff :
    Gets formals actuals i actual ↔
      ∃ a, Receives formals actuals i a ∧ actuals[a]? = some actual := by
  -- the untagged actuals by value and by position are one list seen in two ways
  have hwaiting : (i, actual) ∈ (free formals actuals).zip (actuals.filter (·.tag.isNone)) ↔
      ∃ a, (i, a) ∈ (free formals actuals).zip (untagged actuals) ∧
        actuals[a]? = some actual := by
    rw [← map_fst_waiting, ← map_snd_waiting, List.zip_map_right, List.zip_map_right]
    simp only [List.mem_map, Prod.exists, Prod.map_apply, id_eq, Prod.mk.injEq]
    constructor
    · rintro ⟨_, _, a, hmem, rfl, rfl⟩
      exact ⟨a, ⟨_, _, _, hmem, rfl, rfl⟩, getElem?_of_mem_zip_waiting hmem⟩
    · rintro ⟨_, ⟨_, other, a, hmem, rfl, rfl⟩, ha⟩
      obtain rfl := Option.some.inj ((getElem?_of_mem_zip_waiting hmem).symm.trans ha)
      exact ⟨_, _, _, hmem, rfl, rfl⟩
  rw [Gets, hwaiting]
  constructor
  · rintro (⟨hmem, hplaced⟩ | ⟨a, hmem, ha⟩)
    · obtain ⟨a, ha⟩ := List.mem_iff_getElem?.1 hmem
      obtain hnames | hbegins := hplaced
      · exact ⟨a, .inl ((names_iff ha).2 hnames), ha⟩
      · exact ⟨a, .inr (.inl ((begins_iff ha).2 hbegins)), ha⟩
    · exact ⟨a, .inr (.inr hmem), ha⟩
  · rintro ⟨a, hnames | hbegins | hmem, ha⟩
    · exact .inl ⟨List.mem_of_getElem? ha, .inl ((names_iff ha).1 hnames)⟩
    · exact .inl ⟨List.mem_of_getElem? ha, .inr ((begins_iff ha).1 hbegins)⟩
    · exact .inr ⟨a, hmem, ha⟩

theorem Reordered.gets_iff (h : Reordered actuals others) :
    Gets formals actuals i actual ↔ Gets formals others i actual := by
  simp only [Gets, h.beginsFormal_iff, h.perm.mem_iff, h.free_eq, h.untagged]

/-- An ordinary formal without default is supplied if it gets anything. -/
theorem isUnsupplied_iff :
    IsUnsupplied formals actuals i ↔
      IsOrdinary formals i ∧ (∀ actual, ¬ Gets formals actuals i actual) ∧
        ∃ formal ∈ formals[i]?, formal.value.isMissingArg = true := by
  rw [IsUnsupplied]
  refine and_congr_right fun _ => and_congr_left fun _ => ?_
  simp only [Matching.gets_iff, not_exists, not_and]
  constructor
  · intro hnone actual a hreceives _
    exact hnone a hreceives.lt_length hreceives
  · intro hnone a ha hreceives
    exact hnone actuals[a] a hreceives (List.getElem?_eq_getElem ha)

/-! ## What no formal gets -/

theorem exists_mem_zip_iff {α β : Type} {xs : List α} {ys : List β} {y : β} :
    (∃ x, (x, y) ∈ xs.zip ys) ↔ y ∈ ys.take xs.length := by
  simp only [List.mem_iff_getElem?, List.getElem?_zip_eq_some, List.getElem?_take]
  constructor
  · rintro ⟨x, k, hx, hy⟩
    exact ⟨k, by rw [if_pos (List.getElem?_eq_some_iff.1 hx).1, hy]⟩
  · rintro ⟨k, hk⟩
    split at hk
    · rename_i hlt
      exact ⟨xs[k], k, List.getElem?_eq_getElem hlt, hk⟩
    · cases hk

theorem filter_not_mem_take {α β : Type} [DecidableEq β] {f : α → β} {items : List α}
    (hnodup : (items.map f).Nodup) (n : Nat) :
    items.filter (fun item => decide (f item ∉ (items.map f).take n)) = items.drop n := by
  have hdisjoint : ((items.take n).map f ++ (items.drop n).map f).Nodup := by
    rwa [← List.map_append, List.take_append_drop]
  have htake : ∀ item ∈ items.take n, ¬ decide (f item ∉ (items.take n).map f) = true := by
    intro item hitem
    rw [decide_eq_true_eq, not_not]
    exact List.mem_map_of_mem hitem
  have hdrop : ∀ item ∈ items.drop n, decide (f item ∉ (items.take n).map f) = true := by
    intro item hitem
    rw [decide_eq_true_eq]
    exact fun hmem => (List.nodup_append'.1 hdisjoint).2.2 hmem (List.mem_map_of_mem hitem)
  rw [← List.map_take]
  calc items.filter (fun item => decide (f item ∉ (items.take n).map f))
    _ = (items.take n ++ items.drop n).filter
          (fun item => decide (f item ∉ (items.take n).map f)) := by rw [List.take_append_drop]
    _ = items.drop n := by
      rw [List.filter_append, List.filter_eq_nil_iff.2 htake, List.filter_eq_self.2 hdrop,
        List.nil_append]

theorem hasActual_iff (h : pair formals actuals = .ok pairs) :
    pairs.hasActual a = true ↔ ∃ i, Receives formals actuals i a := by
  rw [Pairing.hasActual_iff_gives]
  exact exists_congr fun i => receives_of_pair h

/-- Of the actuals without tag, those are left over that come after as many as there are formals for
    them. -/
theorem filter_isNone_leftover (h : pair formals actuals = .ok pairs) :
    ((leftover actuals pairs).map Prod.fst).filter (·.tag.isNone) =
      (actuals.filter (·.tag.isNone)).drop (free formals actuals).length := by
  -- the first two passes give no place to an actual without tag
  have hreceived {x : Arg Value × Nat} (hmem : x ∈ waiting actuals) :
      pairs.hasActual x.2 = true ↔
        x.2 ∈ ((waiting actuals).map Prod.snd).take (free formals actuals).length := by
    rw [hasActual_iff h, map_snd_waiting, ← exists_mem_zip_iff]
    refine exists_congr fun i => ⟨?_, fun hmem => .inr (.inr hmem)⟩
    obtain ⟨hactual, htag⟩ := mem_waiting.1 hmem
    rintro (⟨tag, hsome, -⟩ | ⟨-, ⟨tag, hsome, -⟩, -⟩ | hmem)
    · rw [tagAt_of_getElem? hactual, htag] at hsome
      cases hsome
    · rw [tagAt_of_getElem? hactual, htag] at hsome
      cases hsome
    · exact hmem
  calc ((leftover actuals pairs).map Prod.fst).filter (·.tag.isNone)
    _ = ((waiting actuals).filter fun actual => !pairs.hasActual actual.2).map Prod.fst := by
      rw [List.filter_map, leftover, waiting, List.filter_comm]
      rfl
    _ = ((waiting actuals).drop (free formals actuals).length).map Prod.fst := by
      have hnodup : ((waiting actuals).map Prod.snd).Nodup :=
        map_snd_waiting ▸ nodup_untagged actuals
      rw [← filter_not_mem_take hnodup]
      congr 1
      refine List.filter_congr fun x hx => ?_
      rw [Bool.eq_iff_iff, decide_eq_true_eq, ← hreceived hx, Bool.not_eq_true', Bool.not_eq_true]
    _ = (actuals.filter (·.tag.isNone)).drop (free formals actuals).length := by
      rw [List.map_drop, map_fst_waiting]

/-- Of the tagged actuals, those are left over that have no place. -/
theorem filter_isSome_leftover (h : pair formals actuals = .ok pairs) :
    ((leftover actuals pairs).map Prod.fst).filter (·.tag.isSome) =
      actuals.filter fun actual =>
        actual.tag.isSome && !decide (IsPlaced formals actuals actual) := by
  -- the third pass gives no place to an actual with a tag
  have hreceived {x : Arg Value × Nat} (hmem : x ∈ actuals.zipIdx) (htag : x.1.tag.isSome) :
      pairs.hasActual x.2 = true ↔ IsPlaced formals actuals x.1 := by
    have hactual := List.mem_zipIdx_iff_getElem?.1 hmem
    rw [hasActual_iff h]
    constructor
    · rintro ⟨i, hnames | hbegins | hzip⟩
      · exact ⟨i, hnames.isOrdinary.1, .inl ((names_iff hactual).1 hnames)⟩
      · exact ⟨i, hbegins.1.1, .inr ((begins_iff hactual).1 hbegins)⟩
      · have := (mem_untagged.1 (List.of_mem_zip hzip).2).2
        rw [tagAt_of_getElem? hactual] at this
        simp [this] at htag
    · rintro ⟨i, -, hnames | hbegins⟩
      · exact ⟨i, .inl ((names_iff hactual).2 hnames)⟩
      · exact ⟨i, .inr (.inl ((begins_iff hactual).2 hbegins))⟩
  calc ((leftover actuals pairs).map Prod.fst).filter (·.tag.isSome)
    _ = (actuals.zipIdx.filter fun actual =>
          actual.1.tag.isSome && !pairs.hasActual actual.2).map Prod.fst := by
      rw [List.filter_map, leftover, List.filter_filter]
      rfl
    _ = (actuals.zipIdx.filter ((fun actual =>
          actual.tag.isSome && !decide (IsPlaced formals actuals actual)) ∘ Prod.fst)).map
            Prod.fst := by
      congr 1
      refine List.filter_congr fun x hx => ?_
      rw [Function.comp_apply]
      cases htag : x.1.tag.isSome with
      | false => rfl
      | true =>
        rw [Bool.true_and, Bool.true_and, Bool.not_inj_iff, Bool.eq_iff_iff, decide_eq_true_eq]
        exact hreceived hx htag
    _ = _ := by rw [← List.filter_map, List.zipIdx_map_fst]

/-- What is left over is the same in both orders. -/
theorem Reordered.leftover (h : Reordered actuals others) {otherPairs : Pairing}
    (hpair : pair formals actuals = .ok pairs) (hother : pair formals others = .ok otherPairs) :
    Reordered ((leftover actuals pairs).map Prod.fst)
      ((leftover others otherPairs).map Prod.fst) := by
  have huntagged : ((Matching.leftover actuals pairs).map Prod.fst).filter (·.tag.isNone) =
      ((Matching.leftover others otherPairs).map Prod.fst).filter (·.tag.isNone) := by
    rw [filter_isNone_leftover hpair, filter_isNone_leftover hother, h.untagged, h.free_eq]
  have htagged : (((Matching.leftover actuals pairs).map Prod.fst).filter (·.tag.isSome)).Perm
      (((Matching.leftover others otherPairs).map Prod.fst).filter (·.tag.isSome)) := by
    rw [filter_isSome_leftover hpair, filter_isSome_leftover hother]
    simp only [IsPlaced, h.beginsFormal_iff]
    exact h.perm.filter _
  -- a list is its tagged part and its untagged part, up to order
  have hsplit (args : ArgList) :
      (args.filter (·.tag.isSome) ++ args.filter (·.tag.isNone)).Perm args := by
    simpa using List.filter_append_perm (fun arg : Arg Value => arg.tag.isSome) args
  exact ⟨(hsplit _).symm.trans ((htagged.append (huntagged ▸ .refl _)).trans (hsplit _)),
    huntagged⟩

/-! ## Both orders -/

theorem Reordered.usesAll (h : Reordered actuals others) {otherPairs : Pairing}
    (hpair : pair formals actuals = .ok pairs) (hother : pair formals others = .ok otherPairs)
    (huses : UsesAll formals actuals) : UsesAll formals others := by
  refine huses.imp_right fun hnone => ?_
  have hperm := (h.leftover hpair hother).perm
  rw [(leftover_eq_nil_iff hpair).2 hnone, List.map_nil, List.nil_perm, List.map_eq_nil_iff]
    at hperm
  exact (leftover_eq_nil_iff hother).1 hperm

theorem Reordered.succeeds (h : Reordered actuals others)
    (hok : ∃ result, matchFormals formals actuals populate = .ok result) :
    ∃ result, matchFormals formals others populate = .ok result := by
  obtain ⟨hnames, hbegins, huses, hsupplies⟩ := exists_matchFormals_iff.1 hok
  obtain ⟨pairs, hpair⟩ := pair_ok_iff.2 ⟨hnames, hbegins⟩
  obtain ⟨otherPairs, hother⟩ := h.pair_ok ⟨pairs, hpair⟩
  obtain ⟨hnames', hbegins'⟩ := pair_ok_iff.1 ⟨otherPairs, hother⟩
  refine exists_matchFormals_iff.2 ⟨hnames', hbegins', h.usesAll hpair hother huses, ?_⟩
  simp only [isUnsupplied_iff, ← h.gets_iff] at hsupplies ⊢
  exact hsupplies

theorem getElem?_of_matchFormals {result : ArgList} (hpair : pair formals actuals = .ok pairs)
    (h : matchFormals formals actuals populate = .ok result) :
    result[i]? = (formals[i]?).map fun formal =>
      Arg.new formal.tag (assigned formals actuals pairs.actualOf? i) := by
  rw [eq_map_assigned hpair h]
  simp only [List.getElem?_map, List.getElem?_zipIdx, Option.map_map]
  cases formals[i]? with
  | none => rfl
  | some formal => simp

/-- The value of an ordinary formal is that of the one actual it gets. -/
theorem actualOf?_bind_eq_some_iff (hpair : pair formals actuals = .ok pairs) :
    (pairs.actualOf? i).bind (actuals[·]?) = some actual ↔ Gets formals actuals i actual := by
  rw [Option.bind_eq_some_iff, gets_iff]
  refine exists_congr fun a => and_congr_left fun _ => ?_
  rw [Pairing.actualOf?_eq_some_iff (nodup_of_pair hpair), receives_of_pair hpair]

theorem Reordered.assigned_eq (h : Reordered actuals others) {otherPairs : Pairing}
    (hpair : pair formals actuals = .ok pairs) (hother : pair formals others = .ok otherPairs)
    (hi : ¬ IsEllipsis formals i) :
    assigned formals actuals pairs.actualOf? i =
      assigned formals others otherPairs.actualOf? i := by
  have hsame :
      (pairs.actualOf? i).bind (actuals[·]?) = (otherPairs.actualOf? i).bind (others[·]?) := by
    ext actual
    rw [actualOf?_bind_eq_some_iff hpair, actualOf?_bind_eq_some_iff hother, h.gets_iff]
  rw [assigned, assigned, if_neg hi, if_neg hi, hsame]

theorem assigned_of_isEllipsis (hpair : pair formals actuals = .ok pairs)
    (hi : IsEllipsis formals i) :
    assigned formals actuals pairs.actualOf? i = .dots ((leftover actuals pairs).map Prod.fst) := by
  rw [assigned, if_pos hi, leftover_eq (nodup_of_pair hpair)
    (fun hi => ((assigns_of_pair hpair).ordinary hi).1.1)]

/-- The order of named arguments does not matter: matching succeeds on both orders or on none, and
    every formal is bound to the same value, but for the order in which the first `...` collects the
    named arguments that are left over. -/
theorem matchFormals_reordered (formals : ArgList) (populate : Bool)
    (h : Reordered actuals others) :
    ((∃ result, matchFormals formals actuals populate = .ok result) ↔
      ∃ result, matchFormals formals others populate = .ok result) ∧
    ∀ result otherResult, matchFormals formals actuals populate = .ok result →
      matchFormals formals others populate = .ok otherResult →
      result.length = formals.length ∧ otherResult.length = formals.length ∧
      (∀ i, IsOrdinary formals i → result[i]? = otherResult[i]?) ∧
      ∀ i, IsEllipsis formals i → ∃ dots otherDots,
        result[i]? = some (.tagged .ellipsis (.dots dots)) ∧
        otherResult[i]? = some (.tagged .ellipsis (.dots otherDots)) ∧
        Reordered dots otherDots := by
  refine ⟨⟨h.succeeds, h.symm.succeeds⟩, fun result otherResult hresult hotherResult => ?_⟩
  obtain ⟨pairs, hpair, -⟩ := bind_eq_ok_iff.1 hresult
  obtain ⟨otherPairs, hother, -⟩ := bind_eq_ok_iff.1 hotherResult
  have hbound (i : Nat) := getElem?_of_matchFormals (i := i) hpair hresult
  have hotherBound (i : Nat) := getElem?_of_matchFormals (i := i) hother hotherResult
  refine ⟨length_of_matchFormals hpair hresult, length_of_matchFormals hother hotherResult,
    fun i hi => ?_, fun i hi => ?_⟩
  · rw [hbound, hotherBound, h.assigned_eq hpair hother hi.2]
  · obtain ⟨formal, hformal, htag⟩ := tagAt_eq_some_iff.1 hi.1
    refine ⟨_, _, ?_, ?_, h.leftover hpair hother⟩
    · rw [hbound, hformal, assigned_of_isEllipsis hpair hi, Option.map_some, htag]
      rfl
    · rw [hotherBound, hformal, assigned_of_isEllipsis hother hi, Option.map_some, htag]
      rfl

/-- The formals `(alpha, ...)` and two actuals, `1st` and `z = 2nd`, in either order. -/
theorem matchFormals_reordered_pair :
    let formals : ArgList := [.tagged ⟨"alpha"⟩ .null, .tagged .ellipsis .missingArg]
    let first : Arg Value := .untagged (.symbol ⟨"p"⟩)
    let second : Arg Value := .tagged ⟨"z"⟩ (.symbol ⟨"q"⟩)
    let result : ArgList := [.tagged ⟨"alpha"⟩ (.symbol ⟨"p"⟩), .tagged .ellipsis (.dots [second])]
    Reordered [first, second] [second, first] ∧
      matchFormals formals [first, second] false = .ok result ∧
      ∃ otherResult, matchFormals formals [second, first] false = .ok otherResult ∧
        otherResult[0]? = some (.tagged ⟨"alpha"⟩ (.symbol ⟨"p"⟩)) := by
  intro formals first second result
  have hreordered : Reordered [first, second] [second, first] := ⟨.swap second first [], rfl⟩
  have hresult : matchFormals formals [first, second] false = .ok result := by rfl
  obtain ⟨hiff, hsame⟩ := matchFormals_reordered formals false hreordered
  obtain ⟨otherResult, hother⟩ := hiff.1 ⟨result, hresult⟩
  obtain ⟨-, -, hordinary, -⟩ := hsame result otherResult hresult hother
  exact ⟨hreordered, hresult, otherResult, hother, (hordinary 0 (by decide)).symm⟩

end CallByNeed.Matching
