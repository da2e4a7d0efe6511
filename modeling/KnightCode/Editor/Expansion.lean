import KnightCode.Editor.Pieces

/-!
# Paste markers expanded

The editor puts the contents in one paste after another, each into a text that has the contents of
those before it. Where no marker of a paste begins in other text when its turn comes, that is the
text in which every paste is its content.
-/

namespace KnightCode.Editor

open List Option
open JsonText (decimal decimal_injective)

/-- `result.replace(markerRegex, () => content)` for the paste with this id. The first number counts
the units of a match that are still to be passed. -/
def replaceMarkers (id content : Text) : ℕ → Text → Text
  | _, [] => []
  | skip + 1, _ :: rest => replaceMarkers id content skip rest
  | 0, c :: rest =>
    match matchMarker (c :: rest) with
    | some found =>
      if found.id = id then content ++ replaceMarkers id content (found.length - 1) rest
      else c :: replaceMarkers id content 0 rest
    | none => c :: replaceMarkers id content 0 rest

def expandPasteMarkers (pastes : List (ℕ × Text)) (text : Text) : Text :=
  pastes.foldl (fun result paste => replaceMarkers (decimal paste.1) paste.2 0 result) text

def getExpandedText (e : Editor) : Text :=
  expandPasteMarkers e.pastes e.state.getText

/-- What `submitValue` hands on. -/
def submittedText (e : Editor) : Text :=
  trim (expandPasteMarkers e.pastes e.state.getText)

/-! ### Turns -/

def HasMarker (n : ℕ) (text : Text) : Prop :=
  (matchMarker text).map MarkerMatch.id = some (decimal n)

instance (n : ℕ) (text : Text) : Decidable (HasMarker n text) :=
  inferInstanceAs (Decidable (_ = _))

/-- The piece once the pastes with these numbers have their contents. -/
def partly (done : List ℕ) : Piece → Text
  | .char c => [c]
  | .paste n content => if n ∈ done then content else (Piece.paste n content).shown

/-- No marker with the number begins in a unit or in a content that stands in the text. -/
def Apart (n : ℕ) (done : List ℕ) : List Piece → Prop
  | [] => True
  | .char c :: rest => ¬HasMarker n (c :: rest.flatMap (partly done)) ∧ Apart n done rest
  | .paste m content :: rest =>
    (m ∈ done → ∀ suffix ∈ content.tails, suffix ≠ [] →
      ¬HasMarker n (suffix ++ rest.flatMap (partly done))) ∧ Apart n done rest

instance Apart.decidable (n : ℕ) (done : List ℕ) :
    (pieces : List Piece) → Decidable (Apart n done pieces)
  | [] => inferInstanceAs (Decidable True)
  | .char _ :: rest =>
    have := Apart.decidable n done rest
    inferInstanceAs (Decidable (_ ∧ _))
  | .paste _ _ :: rest =>
    have := Apart.decidable n done rest
    inferInstanceAs (Decidable (_ ∧ _))

/-- So it is for every paste when its turn comes. -/
def ApartInTurn (pieces : List Piece) : List ℕ → List (ℕ × Text) → Prop
  | _, [] => True
  | done, (n, _) :: pastes => Apart n done pieces ∧ ApartInTurn pieces (done ++ [n]) pastes

instance ApartInTurn.decidable (pieces : List Piece) :
    (done : List ℕ) → (pastes : List (ℕ × Text)) → Decidable (ApartInTurn pieces done pastes)
  | _, [] => inferInstanceAs (Decidable True)
  | done, (n, _) :: pastes =>
    have := ApartInTurn.decidable pieces (done ++ [n]) pastes
    inferInstanceAs (Decidable (_ ∧ _))

/-! ### One turn -/

variable {id content text rest : Text} {n : ℕ} {done : List ℕ} {pieces : List Piece}

theorem replaceMarkers_skip (id content text rest : Text) :
    replaceMarkers id content text.length (text ++ rest) = replaceMarkers id content 0 rest := by
  induction text with
  | nil => rfl
  | cons c text ih => exact ih

theorem replaceMarkers_cons {c : UInt16} (h : ¬HasMarker n (c :: rest)) :
    replaceMarkers (decimal n) content 0 (c :: rest) =
      c :: replaceMarkers (decimal n) content 0 rest := by
  rw [HasMarker] at h
  rw [replaceMarkers]
  cases hfound : matchMarker (c :: rest) with
  | none => rfl
  | some found =>
    rw [hfound] at h
    exact if_neg fun hid => h (congrArg some hid)

theorem replaceMarkers_append
    (h : ∀ suffix, suffix <:+ text → suffix ≠ [] → ¬HasMarker n (suffix ++ rest)) :
    replaceMarkers (decimal n) content 0 (text ++ rest) =
      text ++ replaceMarkers (decimal n) content 0 rest := by
  induction text with
  | nil => rfl
  | cons c text ih =>
    have hhead : ¬HasMarker n (c :: (text ++ rest)) :=
      h (c :: text) (suffix_refl _) (cons_ne_nil _ _)
    rw [cons_append, replaceMarkers_cons hhead, ih]
    · rfl
    · exact fun suffix hsuffix => h suffix (hsuffix.trans (suffix_cons c text))

theorem replaceMarkers_marker {marker : Text} (h : IsMarker id marker) (rest : Text) :
    replaceMarkers id content 0 (marker ++ rest) = content ++ replaceMarkers id content 0 rest := by
  have hmatch := h.matches rest
  have hten := h.ten_le
  cases marker with
  | nil =>
    rw [length_nil] at hten
    omega
  | cons c marker =>
    rw [cons_append] at hmatch
    rw [cons_append, replaceMarkers, hmatch]
    dsimp only
    rw [if_pos rfl, length_cons, Nat.add_sub_cancel, replaceMarkers_skip]

theorem replaceMarkers_other {marker : Text} (h : IsMarker id marker) (hid : id ≠ decimal n)
    (rest : Text) : replaceMarkers (decimal n) content 0 (marker ++ rest) =
      marker ++ replaceMarkers (decimal n) content 0 rest := by
  apply replaceMarkers_append
  intro suffix hsuffix hne hhas
  rcases suffix_iff_eq_drop.mp hsuffix with hdrop
  by_cases hwhole : suffix.length = marker.length
  · rw [hsuffix.eq_of_length hwhole, HasMarker, h.matches rest] at hhas
    exact hid (some.inj hhas)
  · have hbracket : suffix.head? = some 91 := by
      rw [HasMarker, map_eq_some_iff] at hhas
      obtain ⟨found, hfound, -⟩ := hhas
      have hhead := matchMarker_bracket hfound
      rwa [head?_append_of_ne_nil _ hne] at hhead
    have hle := hsuffix.length_le
    have htail : suffix <:+ marker.tail := by
      rw [hdrop]
      obtain ⟨k, hk⟩ := Nat.exists_eq_add_of_lt (lt_of_le_of_ne hle hwhole)
      rw [hk, show suffix.length + k + 1 - suffix.length = 1 + k by omega, ← drop_drop,
        drop_one]
      exact drop_suffix _ _
    exact bracket_not_mem_tail h (htail.mem (mem_of_mem_head? hbracket))

theorem replaceMarkers_turn (hpastes : ∀ c, .paste n c ∈ pieces → c = content) (hn : n ∉ done)
    (h : Apart n done pieces) : replaceMarkers (decimal n) content 0 (pieces.flatMap (partly done)) =
      pieces.flatMap (partly (done ++ [n])) := by
  induction pieces with
  | nil => rfl
  | cons piece pieces ih =>
    cases piece with
    | char c =>
      obtain ⟨hhas, hrest⟩ := h
      have hrec := ih (fun c hc => hpastes c (mem_cons_of_mem _ hc)) hrest
      rw [flatMap_cons, flatMap_cons, ← hrec]
      exact replaceMarkers_cons hhas
    | paste m c =>
      obtain ⟨hhas, hrest⟩ := h
      have hrec := ih (fun c hc => hpastes c (mem_cons_of_mem _ hc)) hrest
      rw [flatMap_cons, flatMap_cons, ← hrec, partly, partly]
      by_cases hdone : m ∈ done
      · rw [if_pos hdone, if_pos (mem_append_left _ hdone)]
        apply replaceMarkers_append
        intro suffix hsuffix
        exact hhas hdone suffix ((mem_tails suffix c).mpr hsuffix)
      · rw [if_neg hdone]
        by_cases hm : m = n
        · subst hm
          rw [if_pos (mem_append_right _ mem_cons_self), hpastes c mem_cons_self]
          exact replaceMarkers_marker (paste_isMarker m content) _
        · have hnot : m ∉ done ++ [n] := by
            rw [mem_append, mem_singleton, not_or]
            exact ⟨hdone, hm⟩
          rw [if_neg hnot]
          exact replaceMarkers_other (paste_isMarker m c) (fun heq => hm (decimal_injective heq)) _

/-! ### All turns -/

variable {pastes : List (ℕ × Text)}

theorem expandPasteMarkers_turns
    (hregistered : ∀ n c, .paste n c ∈ pieces → n ∈ done ∨ Assoc.get n pastes = some c)
    (hkeys : (done ++ Assoc.keys pastes).Nodup) (h : ApartInTurn pieces done pastes) :
    expandPasteMarkers pastes (pieces.flatMap (partly done)) =
      pieces.flatMap (partly (done ++ Assoc.keys pastes)) := by
  induction pastes generalizing done with
  | nil =>
    rw [Assoc.keys, map_nil, append_nil]
    rfl
  | cons paste pastes ih =>
    obtain ⟨n, content⟩ := paste
    obtain ⟨hapart, hrest⟩ := h
    have hkeys' : (done ++ n :: Assoc.keys pastes).Nodup := hkeys
    have hn : n ∉ done := fun hmem =>
      (nodup_append.mp hkeys').2.2 n hmem n mem_cons_self rfl
    have hcontent : ∀ c, .paste n c ∈ pieces → c = content := by
      intro c hc
      have hget := (hregistered n c hc).resolve_left hn
      rw [Assoc.get_cons, if_pos rfl] at hget
      exact (some.inj hget).symm
    have hrec := @ih (done ++ [n]) (fun m c hc => ?_) ?_ hrest
    · rw [append_assoc, singleton_append] at hrec
      change expandPasteMarkers pastes (replaceMarkers (decimal n) content 0 _) = _
      rw [replaceMarkers_turn hcontent hn hapart]
      exact hrec
    · rcases hregistered m c hc with hdone | hget
      · exact .inl (mem_append_left _ hdone)
      · rw [Assoc.get_cons] at hget
        split_ifs at hget with hm
        · exact .inl (by rw [hm]; simp)
        · exact .inr hget
    · rw [append_assoc, singleton_append]
      exact hkeys'

theorem expandPasteMarkers_shown
    (hregistered : ∀ n c, .paste n c ∈ pieces → Assoc.get n pastes = some c)
    (hkeys : (Assoc.keys pastes).Nodup) (h : ApartInTurn pieces [] pastes) :
    expandPasteMarkers pastes (shown pieces) = pieces.flatMap Piece.meant := by
  have hshown : shown pieces = pieces.flatMap (partly []) := by
    apply flatMap_congr
    intro piece _
    cases piece with
    | char c => rfl
    | paste n content =>
      rw [partly, if_neg not_mem_nil]
  rw [hshown, expandPasteMarkers_turns (fun n c hc => .inr (hregistered n c hc)) hkeys h]
  apply flatMap_congr
  intro piece hpiece
  cases piece with
  | char c => rfl
  | paste n content =>
    apply if_pos
    rw [nil_append]
    by_contra hkey
    rw [← Assoc.get_eq_none_iff, hregistered n content hpiece] at hkey
    cases hkey

end KnightCode.Editor
