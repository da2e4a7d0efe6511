import KnightCode.Editor.ReferenceDeletions
import KnightCode.Editor.ReferenceParts

/-!
# Operations on the text and on the reference

A snapshot holds the reference's gap when its text is the shown one with the cursor there and its
registry knows the pastes. Each operation on the text keeps that when it finds what it needs.
-/

namespace KnightCode.Editor

open List Slices JsonText

variable {host : Host} {e e' : Editor} {g g' : Gap Piece}
variable {pastes : List (ℕ × Text)} {ls : List (List Piece)}

/-- The text is the gap's, and the registry has its pastes under numbers up to the counter. -/
structure Holds (s : EditorSnapshot) (g : Gap Piece) : Prop where
  state : s.state = gapState (g.flat Piece.shown)
  registered : Registered s.pastes g.items
  keys : (Assoc.keys s.pastes).Nodup
  numbers : ∀ n ∈ Assoc.keys s.pastes, n ≤ s.pasteCounter

theorem Holds.text (h : Holds e.snapshot g) (hstate : e'.state = gapState (g'.flat Piece.shown))
    (hpastes : e'.pastes = e.pastes) (hcounter : e'.pasteCounter = e.pasteCounter)
    (hitems : Registered e.pastes g'.items) : Holds e'.snapshot g' := by
  refine ⟨hstate, ?_, ?_, ?_⟩
  · change Registered e'.pastes g'.items
    rw [hpastes]
    exact hitems
  · change (Assoc.keys e'.pastes).Nodup
    rw [hpastes]
    exact h.keys
  · change ∀ n ∈ Assoc.keys e'.pastes, n ≤ e'.pasteCounter
    rw [hpastes, hcounter]
    exact h.numbers

theorem Holds.number_le (h : Holds e.snapshot g) {n : ℕ} {content : Text}
    (hn : .paste n content ∈ g.items) : n ≤ e.pasteCounter := by
  apply h.numbers
  by_contra hkey
  have hget := h.registered n content hn
  rw [(Assoc.get_eq_none_iff n e.snapshot.pastes).mpr hkey] at hget
  cases hget

theorem Registered.subset {pieces more : List Piece} (h : Registered pastes pieces)
    (hsub : ∀ piece ∈ more, piece ∈ pieces) : Registered pastes more :=
  fun n content hmem => h n content (hsub _ hmem)

theorem Registered.insert (h : Registered pastes g.items) (hls : ∀ l ∈ ls, Registered pastes l) :
    Registered pastes (g.insert ls).items := by
  intro n content hmem
  rcases Gap.mem_items_insert hmem with hmem | ⟨l, hl, hmem⟩
  · exact h n content hmem
  · exact hls l hl n content hmem

theorem registered_chars (pastes : List (ℕ × Text)) (text : Text) :
    Registered pastes (chars text) :=
  fun _ _ hmem => absurd hmem paste_not_mem_chars

theorem registered_charLines (pastes : List (ℕ × Text)) (text : Text) :
    ∀ l ∈ charLines text, Registered pastes l := by
  intro l hl
  obtain ⟨line, -, rfl⟩ := mem_map.mp hl
  exact registered_chars pastes line

theorem registered_splitPieces {entry : List Piece} (h : Registered pastes entry) :
    ∀ l ∈ splitPieces entry, Registered pastes l := by
  intro l hl
  have hjoin : [Piece.char newline].intercalate (splitPieces entry) = entry :=
    intercalate_splitOn _
  apply h.subset
  intro piece hpiece
  rw [← hjoin]
  obtain ⟨before, after, heq⟩ := append_of_mem hl
  rw [heq, Gap.intercalate_append_cons, Gap.intercalate_cons]
  exact mem_append_right _ (mem_append_left _ hpiece)

/-! ### Text coming in -/

theorem insertTextAtCursorInternal_registry (text : Text) (e : Editor) :
    (e.insertTextAtCursorInternal text).pastes = e.pastes ∧
      (e.insertTextAtCursorInternal text).pasteCounter = e.pasteCounter := by
  rw [insertTextAtCursorInternal]
  dsimp only
  split_ifs <;> exact ⟨rfl, rfl⟩

theorem insertTextAtCursorInternal_shown (h : e.state = gapState (g.flat Piece.shown)) {text : Text}
    (hls : ls.map shown = splitLines (normalizeText text)) :
    (e.insertTextAtCursorInternal text).state = gapState ((g.insert ls).flat Piece.shown) := by
  have hflat : (g.insert ls).flat Piece.shown =
      (g.flat Piece.shown).insert (splitLines (normalizeText text)) := by
    rw [Gap.flat_insert, ← hls]
    rfl
  rw [hflat]
  by_cases hnil : text = []
  · have hone : (g.flat Piece.shown).insert (splitLines (normalizeText text)) =
        g.flat Piece.shown := by
      rw [hnil]
      change (g.flat Piece.shown).insert (splitOn newline []) = _
      rw [splitOn_nil, Gap.insert, append_nil]
    rw [insertTextAtCursorInternal, if_pos hnil, hone]
    exact h
  · exact insertTextAtCursorInternal_gap h hnil

theorem Holds.insertLines (h : Holds e.snapshot g) {text : Text}
    (hls : ls.map shown = splitLines (normalizeText text))
    (hregistered : ∀ l ∈ ls, Registered e.pastes l) :
    Holds (e.insertTextAtCursorInternal text).snapshot (g.insert ls) := by
  obtain ⟨hpastes, hcounter⟩ := insertTextAtCursorInternal_registry text e
  apply h.text (insertTextAtCursorInternal_shown h.state hls) hpastes hcounter
  exact Registered.insert h.registered hregistered

theorem Holds.insertText (h : Holds e.snapshot g) (text : Text) :
    Holds (e.insertTextAtCursorInternal text).snapshot (g.insert (charLines (normalizeText text))) :=
  h.insertLines (shown_charLines _) (registered_charLines _ _)

theorem insertCharacter_holds (h : Holds e.snapshot g) (char : Text) :
    Holds (e.insertCharacter char).snapshot
      ⟨g.above, g.before ++ chars char, g.after, g.below⟩ := by
  have hregistry : (e.insertCharacter char).pastes = e.pastes ∧
      (e.insertCharacter char).pasteCounter = e.pasteCounter := by
    rw [insertCharacter]
    split_ifs <;> exact ⟨rfl, rfl⟩
  apply h.text _ hregistry.1 hregistry.2
  · intro n content hmem
    apply h.registered
    simp only [Gap.mem_items, mem_append] at hmem ⊢
    have hchars := @paste_not_mem_chars n content char
    grind
  · have hshown : (g.before ++ chars char).flatMap Piece.shown =
        g.before.flatMap Piece.shown ++ char := by
      rw [flatMap_append]
      exact congrArg (_ ++ ·) (shown_chars char)
    have hgap := insertCharacter_gap h.state char
    rw [Gap.flat_before, ← hshown] at hgap
    exact hgap

theorem addNewLine_holds (h : Holds e.snapshot g) :
    Holds e.addNewLine.snapshot (g.insert [[], []]) := by
  have hstate : e.addNewLine.state = gapState ((g.insert [[], []]).flat Piece.shown) := by
    rw [addNewLine_gap h.state, Gap.flat_insert]
    simp [Gap.insert]
  refine @Holds.text e e.addNewLine _ _ h hstate rfl rfl ?_
  apply Registered.insert h.registered
  intro l hl n content hmem
  simp only [mem_cons, not_mem_nil, or_false, or_self] at hl
  rw [hl] at hmem
  cases hmem

theorem Holds.register (h : Holds e.snapshot g) (content : Text) :
    Holds ({ e with
      pasteCounter := e.pasteCounter + 1
      pastes := Assoc.set (e.pasteCounter + 1) content e.pastes } : Editor).snapshot g := by
  refine ⟨h.state, fun n c hmem => ?_, Assoc.nodup_keys_set h.keys, fun n hn => ?_⟩
  · have hle := h.number_le hmem
    change Assoc.get n (Assoc.set (e.pasteCounter + 1) content e.pastes) = some c
    rw [Assoc.get_set_ne (by omega)]
    exact h.registered n c hmem
  · change n ≤ e.pasteCounter + 1
    rcases Assoc.mem_keys_set.mp hn with hn | hn
    · omega
    · have := h.numbers n hn
      change n ≤ e.pasteCounter at this
      omega

theorem handlePaste_holds (h : Holds e.snapshot g) (text : Text) :
    Holds (e.handlePaste text).snapshot (g.insert (e.pastedLines text)) := by
  have h' : Holds (e.exitHistoryBrowsing.acted none).pushUndoSnapshot.snapshot g := h
  have hcontent : pastedText (e.exitHistoryBrowsing.acted none).pushUndoSnapshot.state text =
      pastedText e.state text := rfl
  rw [handlePaste, pastedLines, hcontent]
  dsimp only
  split_ifs with hlarge
  · apply (h'.register (pastedText e.state text)).insertLines
    · rw [map_singleton, shown_cons, shown_nil, append_nil]
      exact (splitLines_marker _ _).symm
    · intro l hl n c hmem
      rw [mem_singleton.mp hl, mem_singleton, Piece.paste.injEq] at hmem
      rw [hmem.1, hmem.2]
      exact Assoc.get_set_self _ _ _
  · exact h'.insertText _

theorem insertTextAtCursor_holds (h : Holds e.snapshot g) (text : Text) :
    Holds (e.insertTextAtCursor text).snapshot (g.insert (charLines (normalizeText text))) := by
  rw [insertTextAtCursor]
  split_ifs with hnil
  · have hsame := h.insertText text
    rw [insertTextAtCursorInternal, if_pos hnil] at hsame
    exact hsame
  · exact Holds.insertText (e := (e.pushUndoSnapshot.acted none).exitHistoryBrowsing) h text

theorem setTextInternal_state (text : Text) (e : Editor) :
    (e.setTextInternal text false).state =
      gapState ((⟨[], [], [], []⟩ : Gap UInt16).insert (splitLines text)) := by
  rw [setTextInternal, if_neg Bool.false_ne_true]
  rcases splitLines_cases text with hone | ⟨first, between, last, hseveral⟩
  · rw [hone]
    simp [place, setCursorCol, gapState, Gap.insert, Gap.lines, Gap.line]
  · rw [hseveral, Gap.insert_several, getLastD_several]
    simp [place, setCursorCol, gapState, Gap.lines, Gap.line]

theorem setText_holds (text : Text) (e : Editor) :
    Holds (e.setText text).snapshot (emptyGap.insert (charLines (normalizeText text))) := by
  have hregistry : (e.setText text).pastes = [] ∧ (e.setText text).pasteCounter = 0 := ⟨rfl, rfl⟩
  have hstate : (e.setText text).state =
      gapState ((⟨[], [], [], []⟩ : Gap UInt16).insert (splitLines (normalizeText text))) := by
    rw [setText]
    exact setTextInternal_state _ _
  refine ⟨?_, ?_, ?_, ?_⟩
  · change (e.setText text).state = _
    rw [hstate, Gap.flat_insert, ← shown_charLines]
    rfl
  · apply Registered.insert _ (registered_charLines _ _)
    exact fun n content hmem => (by cases hmem)
  · change (Assoc.keys (e.setText text).pastes).Nodup
    rw [hregistry.1]
    exact nodup_nil
  · change ∀ n ∈ Assoc.keys (e.setText text).pastes, _
    rw [hregistry.1]
    exact fun n hn => (by cases hn)

theorem submitValue_holds (e : Editor) : Holds e.submitValue.snapshot emptyGap :=
  ⟨rfl, fun _ _ hmem => (by cases hmem), nodup_nil, fun _ hn => (by cases hn)⟩

end KnightCode.Editor
