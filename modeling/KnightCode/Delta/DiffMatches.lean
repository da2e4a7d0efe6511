import KnightCode.Delta.Diff

/-!
# What the alignments find

However an alignment chooses its matches, they increase in both revisions and stay inside the
region. Nothing else about them matters for the difference to be right, only for its size.
-/

namespace KnightCode.Delta

open List Option
variable {m index : ℕ} {before after : List Node} {found : List (ℕ × ℕ)}
  {positions : List (Key × List ℕ)} {anchors : Anchors}

open Node

/-- Matches in a region of `m` and `n` items, from the positions `b` and `a` on, both increasing. -/
def Increasing (m n : ℕ) : ℕ → ℕ → List (ℕ × ℕ) → Prop
  | _, _, [] => True
  | b, a, (beforeMatch, afterMatch) :: found =>
    (b ≤ beforeMatch ∧ beforeMatch < m) ∧ (a ≤ afterMatch ∧ afterMatch < n) ∧
      Increasing m n (beforeMatch + 1) (afterMatch + 1) found

namespace Increasing

variable {m n : ℕ}
variable {found : List (ℕ × ℕ)}

theorem mono {b b' a a' : ℕ} (h : Increasing m n b a found) (hb : b' ≤ b) (ha : a' ≤ a) :
    Increasing m n b' a' found := by
  cases found with
  | nil => trivial
  | cons first found =>
    obtain ⟨⟨hbi, him⟩, ⟨haj, hjn⟩, hrest⟩ := h
    exact ⟨⟨le_trans hb hbi, him⟩, ⟨le_trans ha haj, hjn⟩, hrest⟩

theorem swap {b a : ℕ} (h : Increasing m n b a found) :
    Increasing n m a b (found.map Prod.swap) := by
  induction found generalizing b a with
  | nil => trivial
  | cons first found ih =>
    obtain ⟨hbefore, hafter, hrest⟩ := h
    exact ⟨hafter, hbefore, ih hrest⟩

theorem of_pairwise {b a : ℕ} (h : found.Pairwise fun x y => x.1 < y.1 ∧ x.2 < y.2)
    (hrange : ∀ x ∈ found, (b ≤ x.1 ∧ x.1 < m) ∧ (a ≤ x.2 ∧ x.2 < n)) :
    Increasing m n b a found := by
  induction found generalizing b a with
  | nil => trivial
  | cons first found ih =>
    obtain ⟨hfirst, hrest⟩ := pairwise_cons.mp h
    obtain ⟨hbefore, hafter⟩ := hrange first mem_cons_self
    refine ⟨hbefore, hafter, ih hrest fun x hx => ?_⟩
    obtain ⟨⟨-, hm⟩, -, hn⟩ := hrange x (mem_cons_of_mem _ hx)
    obtain ⟨h1, h2⟩ := hfirst x hx
    exact ⟨⟨h1, hm⟩, h2, hn⟩

end Increasing

variable {n : ℕ} (values : List ℕ)

theorem positionalMatches_increasing {offset : ℕ} (hm : offset + before.length ≤ m)
    (hn : offset + after.length ≤ n) :
    Increasing m n offset offset (positionalMatches before after offset) := by
  fun_induction positionalMatches before after offset with
  | case1 b before a after offset hsame ih =>
    simp only [length_cons] at hm hn
    exact ⟨⟨le_refl _, by omega⟩, ⟨le_refl _, by omega⟩, ih (by omega) (by omega)⟩
  | case2 b before a after offset hsame ih =>
    simp only [length_cons] at hm hn
    exact (ih (by omega) (by omega)).mono (Nat.le_succ _) (Nat.le_succ _)
  | case3 => trivial

theorem findInOrder_increasing {values needles : List Node} {position : ℕ}
    (h : findInOrder values needles index position = some found) (hm : index + values.length ≤ m)
    (hn : position + needles.length ≤ n) : Increasing m n index position found := by
  fun_induction findInOrder values needles index position generalizing found with
  | case1 => cases h; trivial
  | case2 => cases h
  | case3 value values needle needles index position hsame ih =>
    obtain ⟨rest, hrest, rfl⟩ := map_eq_some_iff.mp h
    simp only [length_cons] at hm hn
    exact ⟨⟨le_refl _, by omega⟩, ⟨le_refl _, by omega⟩, ih hrest (by omega) (by omega)⟩
  | case4 value values needle needles index position hsame ih =>
    simp only [length_cons] at hm hn ih
    exact (ih h (by omega) (by omega)).mono (Nat.le_succ _) (le_refl _)

theorem identitySubsequence_increasing (h : identitySubsequence before after = some found) :
    Increasing before.length after.length 0 0 found := by
  unfold identitySubsequence at h
  split_ifs at h with hlt hgt
  · exact findInOrder_increasing h (by omega) (by omega)
  · obtain ⟨rest, hrest, rfl⟩ := map_eq_some_iff.mp h
    exact (findInOrder_increasing hrest (by omega) (by omega)).swap

theorem walkLengths_increasing (equal : Node → Node → Bool) (lengths : ℕ → ℕ → ℕ) {left right : ℕ}
    (hm : left + before.length ≤ m) (hn : right + after.length ≤ n) :
    Increasing m n left right (walkLengths equal lengths before after left right) := by
  fun_induction walkLengths equal lengths before after left right with
  | case1 b before a after left right hequal ih =>
    simp only [length_cons] at hm hn
    exact ⟨⟨le_refl _, by omega⟩, ⟨le_refl _, by omega⟩, ih (by omega) (by omega)⟩
  | case2 b before a after left right hequal hle ih =>
    simp only [length_cons] at hm hn ih
    exact (ih (by omega) (by omega)).mono (Nat.le_succ _) (le_refl _)
  | case3 b before a after left right hequal hle ih =>
    simp only [length_cons] at hm hn ih
    exact (ih (by omega) (by omega)).mono (le_refl _) (Nat.le_succ _)
  | case4 => trivial

theorem lcsMatches_increasing {equal : Node → Node → Bool} {maxCells : ℕ}
    (h : lcsMatches before after equal maxCells = some found) :
    Increasing before.length after.length 0 0 found := by
  unfold lcsMatches at h
  split_ifs at h
  · cases h
    trivial
  · cases h
    exact walkLengths_increasing _ _ (by omega) (by omega)

/-! ### Binary search -/

theorem searchBounds_spec (value : ℕ) {low high : ℕ} (hle : low ≤ high)
    (hhigh : high ≤ values.length) (hlow : ∀ x, 0 < low → values[low - 1]? = some x → x < value)
    (hup : ∀ x, values[high]? = some x → value ≤ x) :
    searchBounds values value low high ≤ values.length ∧
      (∀ x, 0 < searchBounds values value low high →
        values[searchBounds values value low high - 1]? = some x → x < value) ∧
      ∀ x, values[searchBounds values value low high]? = some x → value ≤ x := by
  fun_induction searchBounds values value low high with
  | case1 low high hlt middle hmiddle ih =>
    apply ih (by omega) hhigh
    · intro x _ hx
      have hx' : values[middle]? = some x := hx
      rw [getD_eq_getElem?_getD, hx'] at hmiddle
      exact hmiddle
    · exact hup
  | case2 low high hlt middle hmiddle ih =>
    apply ih (by omega) (by omega) hlow
    intro x hx
    rw [getD_eq_getElem?_getD, hx] at hmiddle
    exact not_lt.mp hmiddle
  | case3 low high hlt =>
    have heq : low = high := by omega
    subst heq
    exact ⟨hhigh, hlow, hup⟩

theorem lowerBound_le (value : ℕ) : lowerBound values value ≤ values.length :=
  (searchBounds_spec values value (Nat.zero_le _) (le_refl _) (fun _ h => by omega)
    (fun x hx => by simp at hx)).1

theorem le_of_lowerBound {values : List ℕ} {value x : ℕ}
    (h : values[lowerBound values value]? = some x) : value ≤ x :=
  (searchBounds_spec values value (Nat.zero_le _) (le_refl _) (fun _ h => by omega)
    (fun x hx => by simp at hx)).2.2 x h

theorem lt_of_lowerBound {values : List ℕ} {value x : ℕ} (hpos : 0 < lowerBound values value)
    (h : values[lowerBound values value - 1]? = some x) : x < value :=
  (searchBounds_spec values value (Nat.zero_le _) (le_refl _) (fun _ h => by omega)
    (fun x hx => by simp at hx)).2.1 x hpos h

/-! ### Identity anchors -/

/-- Positions below `length`, in order, each where its value is. -/
def PositionsIn (before : List Node) (length : ℕ) (positions : List (Key × List ℕ)) : Prop :=
  ∀ k indices, Assoc.get k positions = some indices →
    indices.Pairwise (· < ·) ∧ ∀ i ∈ indices, i < length ∧ before[i]?.map key = some k

theorem indexPositions_in {values : List Node} (h : PositionsIn before index positions)
    (hvalues : before.drop index = values) :
    PositionsIn before (index + values.length) (indexPositions index values positions) := by
  induction values generalizing index positions with
  | nil => exact h
  | cons value values ih =>
    have hget : before[index]? = some value := by
      rw [← head?_drop, hvalues]
      rfl
    have hrest : before.drop (index + 1) = values := by
      rw [← drop_drop, hvalues]
      rfl
    have hlength : index + (value :: values).length = index + 1 + values.length := by
      rw [length_cons]
      omega
    rw [hlength]
    apply ih _ hrest
    intro k indices hk
    rw [Assoc.get_set] at hk
    split_ifs at hk with hkey
    · cases hk
      subst hkey
      cases hold : Assoc.get value.key positions with
      | none => simp [hget]
      | some old =>
        obtain ⟨hpair, hall⟩ := h _ _ hold
        simp only [getD_some]
        refine ⟨pairwise_append.mpr ⟨hpair, pairwise_singleton _ _, ?_⟩, ?_⟩
        · intro x hx y hy
          rw [mem_singleton.mp hy]
          exact (hall x hx).1
        · intro i hi
          obtain hi | hi := mem_append.mp hi
          · exact ⟨Nat.lt_succ_of_lt (hall i hi).1, (hall i hi).2⟩
          · rw [mem_singleton.mp hi, hget]
            exact ⟨lt_add_one _, rfl⟩
    · obtain ⟨hpair, hall⟩ := h _ _ hk
      exact ⟨hpair, fun i hi => ⟨Nat.lt_succ_of_lt (hall i hi).1, (hall i hi).2⟩⟩

theorem positionsIn (before : List Node) :
    PositionsIn before before.length (indexPositions 0 before []) := by
  have hempty : PositionsIn before 0 [] := fun _ _ h => by cases h
  have h := indexPositions_in hempty drop_zero
  rwa [zero_add] at h

theorem greedyIdentityAnchors_increasing (h : PositionsIn before m positions)
    {afterIndex next : ℕ} (hn : afterIndex + after.length ≤ n) :
    Increasing m n next afterIndex (greedyIdentityAnchors positions after afterIndex next) := by
  induction after generalizing afterIndex next with
  | nil => trivial
  | cons value after ih =>
    simp only [length_cons] at hn
    have hskip := (@ih (afterIndex + 1) next (by omega)).mono (le_refl _) (Nat.le_succ _)
    rw [greedyIdentityAnchors]
    cases hget : Assoc.get value.key positions with
    | none => exact hskip
    | some candidates =>
      cases hat : candidates[lowerBound candidates next]? with
      | none => simpa [hat] using hskip
      | some beforeIndex =>
        have hmem := mem_of_getElem? hat
        simp only [hat]
        exact ⟨⟨le_of_lowerBound hat, ((h _ _ hget).2 _ hmem).1⟩, ⟨le_refl _, by omega⟩,
          ih (by omega)⟩

/-- Candidates point back to earlier ones, lower in both revisions; a tail is a candidate. All
lie before `a` in the later revision, or at it and not before `b` in the earlier one. -/
structure AnchorsIn (m a b : ℕ) (anchors : Anchors) : Prop where
  lengths : anchors.tails.length = anchors.tailValues.length
  tails : ∀ (position t : ℕ), anchors.tails[position]? = some t →
    ∃ c : MatchCandidate, anchors.candidates[t]? = some c ∧
      anchors.tailValues[position]? = some c.before
  inside : ∀ c : MatchCandidate, c ∈ anchors.candidates →
    c.before < m ∧ (c.after < a ∨ c.after = a ∧ b ≤ c.before)
  linked : ∀ c : MatchCandidate, c ∈ anchors.candidates → ∀ p, c.previous = some p →
    ∃ c' : MatchCandidate, anchors.candidates[p]? = some c' ∧ c'.before < c.before ∧
      c'.after < c.after

theorem getElem?_assignAt {position value : ℕ} (h : position ≤ values.length) (i : ℕ) :
    (assignAt values position value)[i]? = if i = position then some value else values[i]? := by
  unfold assignAt
  split_ifs with hlt hi hi
  · rw [hi, getElem?_set_self hlt]
  · rw [getElem?_set_ne (Ne.symm hi)]
  · have heq : position = values.length := by omega
    rw [hi, heq, getElem?_concat_length]
  · have heq : position = values.length := by omega
    rw [getElem?_append]
    split_ifs with hlt'
    · rfl
    · have hnone : [value][i - values.length]? = none := getElem?_eq_none (by simp; omega)
      rw [hnone, getElem?_eq_none (not_lt.mp hlt')]

theorem length_assignAt (position value : ℕ) (h : position ≤ values.length) :
    (assignAt values position value).length = max values.length (position + 1) := by
  unfold assignAt
  split_ifs with hlt
  · rw [length_set]
    omega
  · rw [length_append, length_singleton]
    omega

theorem addCandidate_in {a b beforeIndex : ℕ} (h : AnchorsIn m a b anchors) (hm : beforeIndex < m)
    (hb : beforeIndex < b) : AnchorsIn m a beforeIndex (addCandidate a beforeIndex anchors) := by
  have hle := lowerBound_le anchors.tailValues beforeIndex
  have hle' : lowerBound anchors.tailValues beforeIndex ≤ anchors.tails.length := by
    rw [h.lengths]
    exact hle
  have hold : ∀ (i : ℕ) (c : MatchCandidate), anchors.candidates[i]? = some c →
      (addCandidate a beforeIndex anchors).candidates[i]? = some c := by
    intro i c hc
    obtain ⟨hlt, -⟩ := List.getElem?_eq_some_iff.mp hc
    rw [addCandidate, getElem?_append_left hlt, hc]
  constructor
  · rw [addCandidate, length_assignAt _ _ _ hle', length_assignAt _ _ _ hle, h.lengths]
  · intro position t ht
    have hvalues := @getElem?_assignAt anchors.tailValues _ beforeIndex hle position
    have htails := @getElem?_assignAt anchors.tails _ anchors.candidates.length hle' position
    have ht' := htails.symm.trans ht
    by_cases hpos : position = lowerBound anchors.tailValues beforeIndex
    · rw [if_pos hpos] at ht' hvalues
      cases ht'
      exact ⟨_, getElem?_concat_length, hvalues⟩
    · rw [if_neg hpos] at ht' hvalues
      obtain ⟨c, hc, hv⟩ := h.tails position t ht'
      exact ⟨c, hold t c hc, hvalues.trans hv⟩
  · intro c hc
    obtain hc | hc := mem_append.mp hc
    · obtain ⟨hcm, hafter⟩ := h.inside c hc
      refine ⟨hcm, hafter.imp_right fun ⟨heq, hle⟩ => ⟨heq, ?_⟩⟩
      exact le_of_lt (lt_of_lt_of_le hb hle)
    · rw [mem_singleton.mp hc]
      exact ⟨hm, .inr ⟨rfl, le_refl _⟩⟩
  · intro c hc p hp
    obtain hc | hc := mem_append.mp hc
    · obtain ⟨c', hc', hlt⟩ := h.linked c hc p hp
      exact ⟨c', hold p c' hc', hlt⟩
    · rw [mem_singleton.mp hc] at hp ⊢
      simp only at hp ⊢
      split_ifs at hp with hzero
      have hpos : 0 < lowerBound anchors.tailValues beforeIndex := Nat.pos_of_ne_zero hzero
      obtain ⟨c', hc', hv⟩ := h.tails _ _ hp
      have hlt := lt_of_lowerBound hpos hv
      refine ⟨c', hold p c' hc', hlt, ?_⟩
      obtain hafter | ⟨-, hle⟩ := (h.inside c' (mem_of_getElem? hc')).2
      · exact hafter
      · omega

theorem addPositions_in {a b : ℕ} {positions : List ℕ} (h : AnchorsIn m a b anchors)
    (hpair : positions.Pairwise (· < ·)) (hm : ∀ i ∈ positions, i < m ∧ i < b) :
    ∃ b', (∀ i ∈ positions.head?, b' = i) ∧ (positions = [] → b' = b) ∧
      AnchorsIn m a b' (positions.foldr (addCandidate a) anchors) := by
  induction positions with
  | nil => exact ⟨b, fun _ h => (by cases h), fun _ => rfl, h⟩
  | cons i positions ih =>
    obtain ⟨hfirst, hrest⟩ := pairwise_cons.mp hpair
    obtain ⟨b', hhead, hnil, hin⟩ := ih hrest fun x hx => hm x (mem_cons_of_mem _ hx)
    obtain ⟨him, hib⟩ := hm i mem_cons_self
    have hlt : i < b' := by
      cases positions with
      | nil => rwa [hnil rfl]
      | cons j positions =>
        rw [hhead j rfl]
        exact hfirst j mem_cons_self
    refine ⟨i, fun _ h => ?_, fun h => (by cases h), addCandidate_in hin him hlt⟩
    cases h
    rfl

theorem addCandidates_in {before : List Node} {m a : ℕ} {anchors : Anchors}
    {positions : List (Key × List ℕ)} {after : List Node} (hpos : PositionsIn before m positions)
    (h : AnchorsIn m a m anchors) :
    AnchorsIn m (a + after.length) m (addCandidates positions after a anchors) := by
  induction after generalizing a anchors with
  | nil => exact h
  | cons value after ih =>
    have hlength : a + (value :: after).length = a + 1 + after.length := by
      rw [length_cons]
      omega
    rw [hlength]
    apply ih
    have hlist : ((Assoc.get value.key positions).getD []).Pairwise (· < ·) ∧
        ∀ i ∈ (Assoc.get value.key positions).getD [], i < m := by
      cases hget : Assoc.get value.key positions with
      | none => simp
      | some indices =>
        obtain ⟨hpair, hall⟩ := hpos _ _ hget
        exact ⟨hpair, fun i hi => (hall i hi).1⟩
    obtain ⟨b', -, -, hin⟩ := addPositions_in h hlist.1
      fun i hi => ⟨hlist.2 i hi, hlist.2 i hi⟩
    refine ⟨hin.lengths, hin.tails, fun c hc => ?_, hin.linked⟩
    obtain ⟨hcm, hafter⟩ := hin.inside c hc
    exact ⟨hcm, .inl (by omega)⟩

theorem chain_decreasing {a b : ℕ} (h : AnchorsIn m a b anchors) (fuel : ℕ) {c : MatchCandidate}
    (hc : anchors.candidates[index]? = some c) :
    (chain anchors.candidates fuel (some index)).Pairwise (fun x y => y.1 < x.1 ∧ y.2 < x.2) ∧
      ∀ x ∈ chain anchors.candidates fuel (some index), x.1 ≤ c.before ∧ x.2 ≤ c.after := by
  induction fuel generalizing index c with
  | zero => simp [chain]
  | succ fuel ih =>
    have hmem := mem_of_getElem? hc
    rw [chain, hc]
    simp only
    cases hp : c.previous with
    | none => cases fuel <;> simp [chain]
    | some p =>
      obtain ⟨c', hc', hb, ha⟩ := h.linked c hmem p hp
      obtain ⟨hpair, hall⟩ := ih hc'
      refine ⟨pairwise_cons.mpr ⟨fun x hx => ?_, hpair⟩, fun x hx => ?_⟩
      · obtain ⟨h1, h2⟩ := hall x hx
        exact ⟨lt_of_le_of_lt h1 hb, lt_of_le_of_lt h2 ha⟩
      · obtain rfl | hx := mem_cons.mp hx
        · exact ⟨le_refl _, le_refl _⟩
        · obtain ⟨h1, h2⟩ := hall x hx
          exact ⟨le_trans h1 (le_of_lt hb), le_trans h2 (le_of_lt ha)⟩

theorem identityAnchors_increasing (before after : List Node) :
    Increasing before.length after.length 0 0 (identityAnchors before after) := by
  have hpos := positionsIn before
  unfold identityAnchors
  simp only
  split_ifs with hmany
  · exact greedyIdentityAnchors_increasing hpos (by omega)
  · have hempty : AnchorsIn before.length 0 before.length ⟨[], [], []⟩ := by
      constructor <;> simp
    have hin := @addCandidates_in before _ _ _ _ after hpos hempty
    rw [zero_add] at hin
    generalize addCandidates (indexPositions 0 before []) after 0 ⟨[], [], []⟩ = anchors at hin ⊢
    cases hlast : anchors.tails.getLast? with
    | none =>
      cases anchors.candidates.length <;> trivial
    | some t =>
      rw [getLast?_eq_getElem?] at hlast
      obtain ⟨c, hc, -⟩ := hin.tails _ _ hlast
      obtain ⟨hpair, hall⟩ := chain_decreasing hin anchors.candidates.length hc
      apply Increasing.of_pairwise
      · exact pairwise_reverse.mpr hpair
      · intro x hx
        obtain ⟨h1, h2⟩ := hall x (mem_reverse.mp hx)
        obtain ⟨hm, hafter⟩ := hin.inside c (mem_of_getElem? hc)
        exact ⟨⟨Nat.zero_le _, by omega⟩, Nat.zero_le _, by omega⟩

theorem regionMatches_increasing (before after : List Node) :
    Increasing before.length after.length 0 0 (regionMatches before after) := by
  have hpositional : Increasing before.length after.length 0 0
      (if before.length = after.length then positionalMatches before after 0 else []) := by
    split_ifs
    · exact positionalMatches_increasing (by omega) (by omega)
    · trivial
  have hsubsequence : Increasing before.length after.length 0 0
      ((identitySubsequence before after).getD []) := by
    cases hfound : identitySubsequence before after with
    | none => trivial
    | some found => exact identitySubsequence_increasing hfound
  have hsemantic : Increasing before.length after.length 0 0
      ((lcsMatches before after semanticallyAligned MAX_SEMANTIC_CELLS).getD []) := by
    cases hfound : lcsMatches before after semanticallyAligned MAX_SEMANTIC_CELLS with
    | none => trivial
    | some found => exact lcsMatches_increasing hfound
  have hidentity := identityAnchors_increasing before after
  unfold regionMatches
  generalize (if before.length = after.length then positionalMatches before after 0 else []) =
    positional at hpositional ⊢
  simp only
  split_ifs <;> assumption

/-! ### Permutations -/

theorem takePositions_spec (hpos : PositionsIn before before.length positions)
    {used : List (Key × ℕ)} {order : List ℕ} (h : takePositions positions used after = some order) :
    order.Nodup ∧
      List.Forall₂ (fun i value => ∃ old, before[i]? = some old ∧ old.key = value.key) order after ∧
      ∀ i ∈ order, ∃ k indices, Assoc.get k positions = some indices ∧
        ∃ j, (Assoc.get k used).getD 0 ≤ j ∧ indices[j]? = some i := by
  induction after generalizing used order with
  | nil =>
    cases h
    exact ⟨nodup_nil, .nil, fun _ hi => by cases hi⟩
  | cons value after ih =>
    rw [takePositions] at h
    cases hget : Assoc.get value.key positions with
    | none => simp [hget] at h
    | some indices =>
      cases hindex : indices[(Assoc.get value.key used).getD 0]? with
      | none => simp [hget, hindex] at h
      | some index =>
        cases hrest : takePositions positions
            (Assoc.set value.key ((Assoc.get value.key used).getD 0 + 1) used) after with
        | none => simp [hget, hrest] at h
        | some rest =>
          have horder : index :: rest = order := by simpa [hget, hindex, hrest] using h
          subst horder
          obtain ⟨hnodup, hforall, hfrom⟩ := ih hrest
          obtain ⟨hpair, hall⟩ := hpos _ _ hget
          obtain ⟨hlt, hkey⟩ := hall index (mem_of_getElem? hindex)
          refine ⟨nodup_cons.mpr ⟨fun hmem => ?_, hnodup⟩, .cons ?_ hforall, ?_⟩
          · -- An index taken later is at a later place among the positions of its value.
            obtain ⟨k, indices', hk, j, hj, hat⟩ := hfrom index hmem
            obtain ⟨-, hall'⟩ := hpos _ _ hk
            have hsame : k = value.key := by
              have hkey' := (hall' index (mem_of_getElem? hat)).2
              exact Option.some.inj (hkey'.symm.trans hkey)
            subst hsame
            rw [hget, Option.some.injEq] at hk
            subst hk
            rw [Assoc.get_set_self, getD_some] at hj
            obtain ⟨hjlt, hjget⟩ := List.getElem?_eq_some_iff.mp hat
            obtain ⟨hilt, higet⟩ := List.getElem?_eq_some_iff.mp hindex
            have hless := pairwise_iff_getElem.mp hpair _ _ hilt hjlt (by omega)
            omega
          · exact map_eq_some_iff.mp hkey
          · intro i hi
            obtain rfl | hi := mem_cons.mp hi
            · exact ⟨_, _, hget, _, le_refl _, hindex⟩
            · obtain ⟨k, indices', hk, j, hj, hat⟩ := hfrom i hi
              refine ⟨k, indices', hk, j, ?_, hat⟩
              rw [Assoc.get_set] at hj
              split_ifs at hj with hkk
              · rw [← hkk]
                rw [getD_some] at hj
                omega
              · exact hj

theorem permutationOf_spec {order : List ℕ} (h : permutationOf before after = some order) :
    before.length = order.length ∧ assertPermutation order = .ok () ∧
      List.Forall₂ (fun i value => ∃ old, before[i]? = some old ∧ old.key = value.key) order
        after := by
  unfold permutationOf at h
  split_ifs at h with hlength
  obtain ⟨hnodup, hforall, -⟩ := takePositions_spec (positionsIn before) h
  have horder : before.length = order.length := by
    rw [hforall.length_eq]
    exact not_not.mp hlength
  refine ⟨horder, assertPermutation_ok.mpr ⟨hnodup, fun i hi => ?_⟩, hforall⟩
  obtain ⟨n, hn, rfl⟩ := mem_iff_getElem.mp hi
  obtain ⟨old, hold, -⟩ := hforall.get hn (by rw [← hforall.length_eq]; exact hn)
  rw [← horder]
  exact (List.getElem?_eq_some_iff.mp hold).1

/-! ### Overlaps -/

theorem tryCandidates_spec {tail b head : Text} {candidates start : ℕ}
    (h : tryCandidates tail b head candidates start = some n) :
    n ≤ tail.length ∧ n ≤ b.length ∧ tail.drop (tail.length - n) = b.take n := by
  induction candidates generalizing start with
  | zero => cases h
  | succ candidates ih =>
    rw [tryCandidates] at h
    cases hk : indexOf head start (tail.drop start) with
    | none => simp [hk] at h
    | some k =>
      simp only [hk] at h
      split_ifs at h with hfits
      · cases h
        obtain ⟨hle, heq⟩ := hfits
        refine ⟨Nat.sub_le _ _, hle, ?_⟩
        by_cases hinside : k ≤ tail.length
        · rw [Nat.sub_sub_self hinside, heq]
        · have hzero : tail.length - k = 0 := by omega
          simp [hzero]
      · exact ih h

theorem overlap_spec (a b : Text) (scan probe maxCandidates : ℕ) :
    overlap a b scan probe maxCandidates ≤ b.length ∧
      a.drop (a.length - overlap a b scan probe maxCandidates) =
        b.take (overlap a b scan probe maxCandidates) := by
  have hzero : (0 : ℕ) ≤ b.length ∧ a.drop (a.length - 0) = b.take 0 := by simp
  have hfound : ∀ head start n, tryCandidates (if scan < a.length then a.drop (a.length - scan)
      else a) b head maxCandidates start = some n →
        n ≤ b.length ∧ a.drop (a.length - n) = b.take n := by
    intro head start n h
    obtain ⟨hn, hb, heq⟩ := tryCandidates_spec h
    refine ⟨hb, ?_⟩
    rw [← heq]
    split_ifs at hn ⊢ with hscan
    · rw [length_drop] at hn ⊢
      rw [drop_drop]
      congr 1
      omega
    · rfl
  unfold overlap
  generalize (if scan < a.length then a.drop (a.length - scan) else a) = tail at hfound ⊢
  split_ifs with hempty
  · exact hzero
  · simp only
    split
    · next n h => exact hfound _ _ _ h
    · split_ifs
      · exact hzero
      · cases hone : tryCandidates tail b (b.take 1) maxCandidates 0 with
        | none => exact hzero
        | some n => exact hfound _ _ _ hone

theorem ownedSlice_eq (text : Text) (start : ℕ) : ownedSlice text start = text.drop start := by
  have hone : ascii " " = [32] := rfl
  rw [ownedSlice, hone, dropLast_concat]

end KnightCode.Delta
