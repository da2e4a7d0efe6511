import KnightCode.Editor.Reference

/-!
# Segments that are parts

Where the segments of a text are its pastes and parts of its other text, the last or the first of
them is one of the reference's parts, and a move by words passes some parts whole and at most one
of the other text in part.
-/

namespace KnightCode.Editor

open List Option Slices

variable {segments : List SegmentData} {pieces : List Piece}

theorem placed_segments (index : ℕ) (texts : List Text) :
    (placed index texts).map SegmentData.segment = texts := by
  induction texts generalizing index with
  | nil => rfl
  | cons text texts ih => rw [placed, map_cons, ih]

theorem units_eq_shown {groups : List (List Piece)}
    (h : segments.map SegmentData.segment = groups.map shown) :
    units segments = (shown groups.flatten).length := by
  have hunits : units segments = ((segments.map SegmentData.segment).map length).sum := by
    rw [units, List.map_map]
    rfl
  have hshown : shown groups.flatten = (groups.map shown).flatten := by
    induction groups generalizing segments with
    | nil => rfl
    | cons group groups ih =>
      cases segments with
      | nil => cases h
      | cons seg segments =>
        rw [map_cons, map_cons] at h
        have hrest := ih (List.cons.inj h).2 (by rw [units, List.map_map]; rfl)
        rw [flatten_cons, shown_append, hrest, map_cons, flatten_cons]
  rw [hunits, h, hshown, length_flatten]

theorem Parts.groups (h : Parts segments pieces) : ∃ groups : List (List Piece),
    groups.flatten = pieces ∧ segments.map SegmentData.segment = groups.map shown ∧
      ∀ group ∈ groups, IsPart group := by
  obtain ⟨groups, hflatten, rfl, hparts⟩ := h
  exact ⟨groups, hflatten, placed_segments 0 _, hparts⟩

theorem Parts.last (h : Parts segments pieces) (hne : pieces ≠ []) :
    ∃ kept group, pieces = kept ++ group ∧ IsPart group ∧
      segments.getLast?.map SegmentData.segment = some (shown group) := by
  obtain ⟨groups, rfl, hshown, hparts⟩ := h.groups
  rcases eq_nil_or_concat' groups with rfl | ⟨kept, group, rfl⟩
  · exact absurd rfl hne
  · refine ⟨kept.flatten, group, by simp, hparts group (by simp), ?_⟩
    rw [← getLast?_map, hshown, map_append, map_singleton, getLast?_concat]

theorem Parts.first (h : Parts segments pieces) (hne : pieces ≠ []) :
    ∃ group kept, pieces = group ++ kept ∧ IsPart group ∧
      segments.head?.map SegmentData.segment = some (shown group) := by
  obtain ⟨groups, rfl, hshown, hparts⟩ := h.groups
  cases groups with
  | nil => exact absurd rfl hne
  | cons group kept =>
    refine ⟨group, kept.flatten, by simp, hparts group mem_cons_self, ?_⟩
    rw [← head?_map, hshown, map_cons, head?_cons]

theorem Parts.lastLength (h : Parts segments pieces) (hne : pieces ≠ []) :
    ∃ kept group, pieces = kept ++ group ∧ IsPart group ∧
      lastLength segments = (shown group).length := by
  obtain ⟨kept, group, hpieces, hpart, hlast⟩ := h.last hne
  obtain ⟨seg, hseg, htext⟩ := map_eq_some_iff.mp hlast
  refine ⟨kept, group, hpieces, hpart, ?_⟩
  rw [Editor.lastLength, hseg, map_some, getD_some, htext]

theorem Parts.firstLength (h : Parts segments pieces) (hne : pieces ≠ []) :
    ∃ group kept, pieces = group ++ kept ∧ IsPart group ∧
      firstLength segments = (shown group).length := by
  obtain ⟨group, kept, hpieces, hpart, hfirst⟩ := h.first hne
  obtain ⟨seg, hseg, htext⟩ := map_eq_some_iff.mp hfirst
  refine ⟨group, kept, hpieces, hpart, ?_⟩
  rw [Editor.firstLength, hseg, map_some, getD_some, htext]

theorem isPart_eq_chars {group : List Piece} (h : IsPart group)
    (hmarker : isPasteMarker (shown group) = false) : group = chars (shown group) := by
  cases h with
  | paste n content =>
    have hpaste : isPasteMarker (shown [.paste n content]) = true := by
      rw [shown_cons, shown_nil, append_nil]
      exact isPasteMarker_iff.mpr ⟨_, paste_isMarker n content⟩
    rw [hpaste] at hmarker
    cases hmarker
  | chars t hne ht => rw [shown_chars]

/-! ### Moves by words -/

theorem wordLength_passes (cut : Text → Text) (wordLike : ℕ → Bool) (segments : List SegmentData) :
    ∃ passed rest, segments = passed ++ rest ∧
      (wordLength cut wordLike segments = units passed ∨
        ∃ next more, rest = next :: more ∧ isPasteMarker next.segment = false ∧
          wordLength cut wordLike segments = units passed + (cut next.segment).length) := by
  have hsplit := (takeWhile_append_dropWhile (p := isBlank) (l := segments)).symm
  rw [wordLength]
  generalize segments.takeWhile isBlank = blanks at hsplit ⊢
  cases hdrop : segments.dropWhile isBlank with
  | nil =>
    rw [hdrop] at hsplit
    exact ⟨blanks, [], hsplit, .inl rfl⟩
  | cons next more =>
    rw [hdrop] at hsplit
    rw [pastBlanks]
    split_ifs with hmarker hword
    · refine ⟨blanks ++ [next], more, by rw [hsplit]; simp, .inl ?_⟩
      rw [units_append, units_cons, units_nil, Nat.add_zero]
    · exact ⟨blanks, next :: more, hsplit, .inr ⟨next, more, rfl, by simpa using hmarker, rfl⟩⟩
    · refine ⟨blanks ++ (next :: more).takeWhile (isOther wordLike),
        (next :: more).dropWhile (isOther wordLike), ?_, .inl ?_⟩
      · rw [append_assoc, takeWhile_append_dropWhile, hsplit]
      · rw [units_append]

theorem map_segment_append {passed rest : List SegmentData} {groups : List (List Piece)}
    (h : (passed ++ rest).map SegmentData.segment = groups.map shown) :
    ∃ first second, groups = first ++ second ∧
      passed.map SegmentData.segment = first.map shown ∧
      rest.map SegmentData.segment = second.map shown := by
  rw [map_append] at h
  obtain ⟨first, second, rfl, hfirst, hsecond⟩ := map_eq_append_iff.mp h.symm
  exact ⟨first, second, rfl, hfirst.symm, hsecond.symm⟩

theorem findWordForward_parts {words : Words} {before : Text}
    (hparts : Parts (words.segment (shown pieces)) pieces) (hne : pieces ≠ []) :
    ∃ removed kept, pieces = removed ++ kept ∧
      findWordForward words (before ++ shown pieces) before.length =
        before.length + (shown removed).length := by
  obtain ⟨groups, hflatten, hshown, hall⟩ := hparts.groups
  have hpos := length_pos_iff.mpr (mt shown_eq_nil.mp hne)
  obtain ⟨passed, rest, hsegments, hlength⟩ := wordLength_passes beforePunctuation
    (words.isWordLike (shown pieces)) (words.segment (shown pieces))
  rw [hsegments] at hshown
  obtain ⟨first, second, rfl, hfirst, hsecond⟩ := map_segment_append hshown
  rw [findWordForward, if_neg (by rw [length_append]; omega)]
  dsimp only
  rw [sliceFrom_append]
  rw [flatten_append] at hflatten
  rcases hlength with hlength | ⟨next, more, rfl, hmarker, hlength⟩
  · refine ⟨first.flatten, second.flatten, hflatten.symm, ?_⟩
    rw [hlength, units_eq_shown hfirst]
  · cases second with
    | nil => cases hsecond
    | cons group second =>
      rw [map_cons, map_cons] at hsecond
      have hnext := (cons.inj hsecond).1
      rw [hnext] at hmarker
      have hgroup := isPart_eq_chars (hall group (by simp)) hmarker
      have hcut := takeWhile_append_dropWhile (p := fun c => !isPunctuation c) (l := shown group)
      refine ⟨first.flatten ++ chars (beforePunctuation (shown group)),
        chars ((shown group).dropWhile fun c => !isPunctuation c) ++ second.flatten, ?_, ?_⟩
      · rw [← hflatten, flatten_cons, append_assoc, ← append_assoc (chars _),
          ← chars_append, beforePunctuation, hcut, ← hgroup]
      · rw [hlength, hnext, units_eq_shown hfirst, shown_append, shown_chars, length_append]

theorem findWordBackward_parts {words : Words} {after : Text}
    (hparts : Parts (words.segment (shown pieces)) pieces) (hne : pieces ≠ []) :
    ∃ kept removed, pieces = kept ++ removed ∧
      findWordBackward words (shown pieces ++ after) (shown pieces).length =
        (shown kept).length := by
  obtain ⟨groups, hflatten, hshown, hall⟩ := hparts.groups
  have hpos := length_pos_iff.mpr (mt shown_eq_nil.mp hne)
  obtain ⟨passed, rest, hsegments, hlength⟩ := wordLength_passes behindPunctuation
    (words.isWordLike (shown pieces)) (words.segment (shown pieces)).reverse
  have hreverse := congrArg reverse hsegments
  rw [reverse_reverse, reverse_append] at hreverse
  rw [hreverse] at hshown
  obtain ⟨first, second, rfl, hfirst, hsecond⟩ := map_segment_append hshown
  rw [findWordBackward, if_neg (by omega)]
  dsimp only
  rw [sliceTo_append]
  rw [flatten_append] at hflatten
  have hunits := units_eq_shown hsecond
  rw [units_reverse] at hunits
  have htotal := congrArg (fun pieces => (shown pieces).length) hflatten
  simp only [shown_append, length_append] at htotal
  rcases hlength with hlength | ⟨next, more, rfl, hmarker, hlength⟩
  · refine ⟨first.flatten, second.flatten, hflatten.symm, ?_⟩
    rw [hlength, hunits]
    omega
  · rw [reverse_cons] at hfirst
    obtain ⟨front, ends, rfl, hfront, hends⟩ := map_segment_append hfirst
    rw [map_singleton] at hends
    obtain ⟨group, rfl, hnext⟩ := map_eq_singleton_iff.mp hends.symm
    rw [← hnext] at hmarker hlength
    have hgroup := isPart_eq_chars (hall group (by simp)) hmarker
    have hcut := rdropWhile_append_rtakeWhile (p := fun c => !isPunctuation c) (l := shown group)
    refine ⟨front.flatten ++ chars ((shown group).rdropWhile fun c => !isPunctuation c),
      chars (behindPunctuation (shown group)) ++ second.flatten, ?_, ?_⟩
    · rw [← hflatten, flatten_append, flatten_singleton, append_assoc,
        append_assoc, ← append_assoc (chars _), ← chars_append, behindPunctuation, hcut,
        ← hgroup]
    · have hparted := congrArg length hcut
      rw [length_append] at hparted
      rw [flatten_append, flatten_singleton, shown_append, length_append] at htotal
      rw [hlength, hunits, shown_append, shown_chars, length_append, behindPunctuation]
      push_cast
      omega

end KnightCode.Editor
