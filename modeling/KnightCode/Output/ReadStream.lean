import KnightCode.Output.ReadTool

/-!
# Reading lines from chunks

The lines up to a place in the text are those that are finished and one that is being read. Of the
selected ones among them the stream stores lines that stand for them, so that in the end the
truncation is that of all selected lines.
-/

namespace KnightCode.Output

open List Option

/-! ### The selected lines -/

def selected (n : ℕ) (limit : Option ℕ) (line : ℕ) : Bool :=
  n ≤ line ∧ limit.all fun limit => line < n + limit

def window {α : Type*} (n : ℕ) (limit : Option ℕ) (lines : List α) : List α :=
  (lines.take ((limit.map (n + ·)).getD lines.length)).drop n

section

variable {n : ℕ} {limit : Option ℕ}
variable {α : Type*}

theorem window_concat {α : Type*} (lines : List α) (line : α) :
    window n limit (lines ++ [line]) =
      window n limit lines ++ if selected n limit lines.length then [line] else [] := by
  rw [window, window, selected]
  cases limit with
  | none =>
    rw [map_none, getD_none, getD_none, take_length, take_length, all_none, drop_append]
    by_cases hn : n ≤ lines.length
    · rw [Nat.sub_eq_zero_of_le hn, drop_zero, if_pos (by simpa using hn)]
    · have hdrop : [line].drop (n - lines.length) = [] :=
        drop_eq_nil_of_le (by rw [length_singleton]; omega)
      rw [hdrop, if_neg (by simpa using hn)]
  | some limit =>
    rw [map_some, getD_some, getD_some, take_append, drop_append, all_some]
    by_cases hselected : n ≤ lines.length ∧ lines.length < n + limit
    · have htake : [line].take (n + limit - lines.length) = [line] :=
        take_of_length_le (by rw [length_singleton]; omega)
      have hdrop : n - (lines.take (n + limit)).length = 0 := by
        rw [length_take]
        omega
      rw [htake, hdrop, drop_zero, if_pos (by simpa using hselected)]
    · rw [if_neg (by simpa using hselected)]
      congr 1
      by_cases hlt : lines.length < n + limit
      · refine drop_eq_nil_of_le ?_
        rw [length_take, length_take, length_singleton]
        omega
      · rw [Nat.sub_eq_zero_of_le (not_lt.mp hlt), take_zero, drop_nil]

theorem window_of_le {lines : List α} (hle : lines.length ≤ n) : window n limit lines = [] := by
  refine drop_eq_nil_of_le ?_
  rw [length_take]
  omega

theorem window_sublist (lines : List α) : (window n limit lines).Sublist lines :=
  (drop_sublist _ _).trans (take_sublist _ _)

theorem selected_next {line : ℕ} (hnext : selected n limit (line + 1) = true)
    (hnot : selected n limit line = false) : n = line + 1 := by
  rw [selected, decide_eq_true_eq] at hnext
  rw [selected, decide_eq_false_iff_not, not_and_or] at hnot
  obtain ⟨hle, hall⟩ := hnext
  rcases hnot with hn | hn
  · omega
  · cases limit with
    | none => exact absurd rfl hn
    | some limit =>
      rw [all_some, decide_eq_true_eq] at hall hn
      omega

theorem selected_last {line : ℕ} (hselected : selected n limit line = true) :
    selected n limit (line + 1) = false ↔ limit.map (n + ·) = some (line + 1) := by
  rw [selected, decide_eq_true_eq] at hselected
  rw [selected, decide_eq_false_iff_not]
  obtain ⟨hle, hall⟩ := hselected
  cases limit with
  | none =>
    rw [map_none]
    exact iff_of_false (fun hnot => hnot ⟨by omega, rfl⟩) nofun
  | some limit =>
    rw [all_some, decide_eq_true_eq] at hall
    rw [map_some, Option.some.injEq, all_some, decide_eq_true_eq]
    omega

theorem window_of_selected_next {lines : List α}
    (hnext : selected n limit (lines.length + 1) = true)
    (hnot : selected n limit lines.length = false) (line : α) :
    window n limit (lines ++ [line]) = [] := by
  refine window_of_le ?_
  rw [length_append, length_singleton]
  exact (selected_next hnext hnot).ge

/-! ### What the stream knows -/

/-- The text of a piece that has been measured. -/
def pending (selection : Option (List Char)) : ℕ :=
  (selection.map byteLength).getD 0

/-- The line being read, when it is selected. -/
def current (n : ℕ) (limit : Option ℕ) (before : List (List Char)) (line : List Char) :
    List Char :=
  if selected n limit before.length then line else []

/-- The stored lines stand for the finished ones among the selected, as far as they are needed. -/
structure Stores (s : LineStream) (finished : List (List Char)) : Prop where
  storedBytes_eq : s.storedBytes = byteLength (join s.storedLines)
  noNewline : ∀ line ∈ s.storedLines, '\n' ∉ line
  complete : s.storedPastCaps = false →
    List.Forall₂ (Stands DEFAULT_MAX_BYTES) s.storedLines finished
  past : s.storedPastCaps = true → ∃ before last first rest, s.storedLines = before ++ [last] ∧
    Exceeds DEFAULT_MAX_LINES DEFAULT_MAX_BYTES before ∧ finished = first ++ rest ∧
    List.Forall₂ (Stands DEFAULT_MAX_BYTES) s.storedLines first

/-- The pieces of the line being read stand for it. -/
structure Gathers (s : LineStream) (line : List Char) : Prop where
  none_iff : s.pieces = none ↔ s.storedPastCaps = true
  hasText : s.lineHasText = decide (line ≠ [])
  gathered : ∀ pieces, s.pieces = some pieces → Stands DEFAULT_MAX_BYTES pieces.flatten line ∧
    '\n' ∉ pieces.flatten ∧ s.lineBytes = byteLength line

/-- What is known of the finished lines among the selected. -/
structure Finishes (s : LineStream) (finished : List (List Char)) : Prop where
  count : s.selectedLines = finished.length
  lastEmpty : s.lastLineEmpty = decide ((finished.getLast?).getD [] = [])
  first : finished ≠ [] → s.firstLineBytes = byteLength (finished.headD [])
  stores : Stores s finished

variable {finished : List (List Char)}

theorem Finishes.beside {s : LineStream} (h : Finishes s finished) (line selectedBytes : ℕ)
    (lineHasText : Bool) (pieces : Option (List (List Char))) (lineBytes : ℕ) :
    Finishes { s with line, selectedBytes, lineHasText, pieces, lineBytes } finished :=
  ⟨h.count, h.lastEmpty, h.first,
    { h.stores with }⟩

/-- The stream has read these lines and a part of the next one. -/
structure Reads (n : ℕ) (limit : Option ℕ) (before : List (List Char)) (line : List Char)
    (s : LineStream) (selection : Option (List Char)) : Prop
    extends Finishes s (window n limit before) where
  line_eq : s.line = before.length
  selection_selected : selection ≠ none → selected n limit before.length = true
  bytes : s.selectedBytes + pending selection =
    byteLength (join (window n limit (before ++ [line])))
  gathers : Gathers s (current n limit before line)

theorem new_reads (n : ℕ) (limit : Option ℕ) : Reads n limit [] [] .new none := by
  have hwindow : window n limit ([] : List (List Char)) = [] := window_of_le (Nat.zero_le _)
  have hcurrent : current n limit [] [] = [] := by
    rw [current, ite_self]
  have hbytes : byteLength (join (window n limit [[]])) = 0 := by
    have hone := @window_concat n limit (List Char) [] []
    rw [nil_append, hwindow, nil_append] at hone
    rw [hone]
    split_ifs
    · rfl
    · rfl
  exact {
    line_eq := rfl
    selection_selected := fun h => absurd rfl h
    bytes := hbytes.symm
    count := by rw [hwindow]; rfl
    lastEmpty := by rw [hwindow]; rfl
    first := fun hne => absurd hwindow hne
    stores := {
      storedBytes_eq := rfl
      noNewline := fun line hline => by cases hline
      complete := fun _ => by rw [hwindow]; exact .nil
      past := fun h => by cases h }
    gathers := {
      none_iff := iff_of_false nofun Bool.false_ne_true
      hasText := by rw [hcurrent]; rfl
      gathered := fun pieces hpieces => by
        obtain rfl := Option.some.inj hpieces
        rw [hcurrent]
        exact ⟨.inl rfl, not_mem_nil, rfl⟩ } }

/-! ### One step of the loop -/

/-- The line behind the selected ones. -/
def endOf (n : ℕ) (limit : Option ℕ) : Option ℚ :=
  (limit.map (n + ·)).map fun line : ℕ => (line : ℚ)

theorem selects_eq (line : ℕ) :
    LineStream.selects (n : ℚ) (endOf n limit) line = selected n limit line := by
  rw [LineStream.selects, selected, endOf, decide_eq_decide, Nat.cast_le]
  cases limit with
  | none => rfl
  | some limit =>
    rw [map_some, map_some, all_some, all_some, decide_eq_true_eq, decide_eq_true_eq, Nat.cast_lt]

theorem endOf_eq (line : ℕ) :
    endOf n limit = some (line + 1 : ℚ) ↔ limit.map (n + ·) = some (line + 1) := by
  rw [endOf]
  cases limit with
  | none => simp
  | some limit =>
    rw [map_some, map_some, Option.some.injEq, Option.some.injEq]
    exact_mod_cast Iff.rfl

variable {s : LineStream} {before : List (List Char)} {line text : List Char}
  {selection : Option (List Char)}

theorem LineStream.appendToLine_kept (s : LineStream) (piece : List Char) :
    ∃ hasText pieces lineBytes, s.appendToLine piece =
      { s with lineHasText := hasText, pieces := pieces, lineBytes := lineBytes } := by
  rw [LineStream.appendToLine]
  cases s.pieces with
  | none | some pieces => exact ⟨_, _, _, rfl⟩

theorem Stands.append {stored line text : List Char} (h : Stands DEFAULT_MAX_BYTES stored line) :
    Stands DEFAULT_MAX_BYTES
      (if byteLength line ≤ DEFAULT_MAX_BYTES then stored ++ text else stored)
      (line ++ text) := by
  have hle : byteLength line ≤ byteLength (line ++ text) := by
    rw [byteLength_append]
    omega
  split_ifs with hfits
  · rcases h with rfl | ⟨-, hover⟩
    · exact .inl rfl
    · exact absurd hfits (not_le.mpr hover)
  · rcases h with rfl | ⟨hstored, hover⟩
    · exact .inr ⟨not_le.mp hfits, (not_le.mp hfits).trans_le hle⟩
    · exact .inr ⟨hstored, hover.trans_le hle⟩

theorem Gathers.append (h : Gathers s line) (hne : text ≠ []) (htext : '\n' ∉ text) :
    Gathers (s.appendToLine text) (line ++ text) := by
  have hhas : true = decide (line ++ text ≠ []) :=
    (decide_eq_true (append_ne_nil_of_right_ne_nil _ hne)).symm
  rw [LineStream.appendToLine]
  cases hpieces : s.pieces with
  | none =>
    exact {
      none_iff := iff_of_true rfl (h.none_iff.mp hpieces)
      hasText := hhas
      gathered := fun pieces hsome => by cases hsome }
  | some pieces =>
    obtain ⟨hstands, hnot, hlength⟩ := h.gathered pieces hpieces
    have hpast : ¬s.storedPastCaps = true := fun hpast => by
      rw [h.none_iff.mpr hpast] at hpieces
      cases hpieces
    have hstands' := @Stands.append _ _ text hstands
    exact {
      none_iff := by
        dsimp only
        refine iff_of_false ?_ hpast
        split_ifs
        · exact nofun
        · exact nofun
      hasText := hhas
      gathered := fun pieces' hpieces' => by
        dsimp only at hpieces' ⊢
        rw [hlength] at hpieces' ⊢
        refine ⟨?_, ?_, (byteLength_append _ _).symm⟩
        · split_ifs at hpieces' hstands' with hfits
          · obtain rfl := Option.some.inj hpieces'
            rw [flatten_concat]
            exact hstands'
          · obtain rfl := Option.some.inj hpieces'
            exact hstands'
        · split_ifs at hpieces'
          · obtain rfl := Option.some.inj hpieces'
            rw [flatten_concat]
            exact not_mem_append hnot htext
          · obtain rfl := Option.some.inj hpieces'
            exact hnot }

theorem Reads.readText (h : Reads n limit before line s selection) (htext : '\n' ∉ text) :
    Reads n limit before (line ++ text) (s.readText n (endOf n limit) selection text).1
        (s.readText n (endOf n limit) selection text).2 ∧
      (selected n limit before.length = true →
        (s.readText n (endOf n limit) selection text).2 ≠ none) := by
  rw [LineStream.readText, selects_eq, h.line_eq]
  have hbytes := h.bytes
  have hgathers := h.gathers
  rw [window_concat] at hbytes
  cases hselected : selected n limit before.length with
  | false =>
    have hnone : selection = none := by
      by_contra hsome
      rw [h.selection_selected hsome] at hselected
      cases hselected
    rw [if_neg Bool.false_ne_true]
    rw [hselected, if_neg Bool.false_ne_true] at hbytes
    rw [current, hselected, if_neg Bool.false_ne_true] at hgathers
    subst hnone
    refine ⟨{ h with bytes := ?_, gathers := ?_ }, fun h => by cases h⟩
    · rw [window_concat, hselected, if_neg Bool.false_ne_true]
      exact hbytes
    · rw [current, hselected, if_neg Bool.false_ne_true]
      exact hgathers
  | true =>
    rw [if_pos rfl]
    rw [hselected, if_pos rfl] at hbytes
    rw [current, hselected, if_pos rfl] at hgathers
    have hpending : pending (some (selection.getD [] ++ text)) =
        pending selection + byteLength text := by
      cases selection with
      | none => exact (zero_add _).symm
      | some before => exact byteLength_append _ _
    have hjoin : s.selectedBytes + pending (some (selection.getD [] ++ text)) =
        byteLength (join (window n limit (before ++ [line ++ text]))) := by
      rw [window_concat, hselected, if_pos rfl, hpending, byteLength_join_concat, byteLength_append]
      rw [byteLength_join_concat] at hbytes
      omega
    refine ⟨?_, fun _ => some_ne_none _⟩
    split_ifs with hnil
    · subst hnil
      have hline : line ++ [] = line := append_nil line
      rw [hline] at hjoin ⊢
      exact { h with selection_selected := fun _ => hselected, bytes := hjoin }
    · obtain ⟨hasText, pieces, lineBytes, hkept⟩ := s.appendToLine_kept text
      have hnext := hgathers.append hnil htext
      rw [hkept] at hnext ⊢
      exact {
        line_eq := h.line_eq
        selection_selected := fun _ => hselected
        bytes := hjoin
        toFinishes := h.beside _ _ _ _ _
        gathers := by
          rw [current, hselected, if_pos rfl]
          exact hnext }

theorem not_decide_ne (line : List Char) : (!decide (line ≠ [])) = decide (line = []) := by
  cases line with
  | nil => rfl
  | cons c line => rfl

theorem finishLine_none (hpieces : s.pieces = none) (hpast : s.storedPastCaps = true) :
    s.finishLine =
      { s with
        selectedLines := s.selectedLines + 1
        lastLineEmpty := !s.lineHasText
        pieces := none
        lineBytes := 0
        lineHasText := false } := by
  rw [LineStream.finishLine, hpieces]
  change ({ s with
    selectedLines := s.selectedLines + 1
    lastLineEmpty := !s.lineHasText
    pieces := if s.storedPastCaps then none else some []
    lineBytes := 0
    lineHasText := false } : LineStream) = _
  rw [if_pos hpast]

theorem finishLine_some {pieces : List (List Char)} (hpieces : s.pieces = some pieces)
    (hpast : s.storedPastCaps = false) :
    s.finishLine =
      { s with
        firstLineBytes := if s.selectedLines = 0 then s.lineBytes else s.firstLineBytes
        storedPastCaps :=
          DEFAULT_MAX_LINES < s.storedLines.length || DEFAULT_MAX_BYTES < s.storedBytes
        storedBytes :=
          s.storedBytes + (byteLength pieces.flatten + if 0 < s.storedLines.length then 1 else 0)
        storedLines := s.storedLines ++ [pieces.flatten]
        selectedLines := s.selectedLines + 1
        lastLineEmpty := !s.lineHasText
        pieces :=
          if DEFAULT_MAX_LINES < s.storedLines.length || DEFAULT_MAX_BYTES < s.storedBytes then none
          else some []
        lineBytes := 0
        lineHasText := false } := by
  have hcaps : (s.store pieces).storedPastCaps =
      (decide (DEFAULT_MAX_LINES < s.storedLines.length) ||
        decide (DEFAULT_MAX_BYTES < s.storedBytes)) := by
    rw [LineStream.store]
    dsimp only
    rw [hpast, Bool.false_or]
  rw [← hcaps, LineStream.finishLine, hpieces]
  rfl

variable {lines : List (List Char)}

theorem headD_concat_of_ne_nil (hne : lines ≠ []) (line : List Char) :
    (lines ++ [line]).headD [] = lines.headD [] :=
  headD_append hne [line]

theorem finishLine_finishes (h : Finishes s finished) (hgathers : Gathers s line) :
    Finishes s.finishLine (finished ++ [line]) ∧
      Gathers s.finishLine [] ∧ s.finishLine.line = s.line ∧
      s.finishLine.selectedBytes = s.selectedBytes := by
  have hcount : s.selectedLines + 1 = (finished ++ [line]).length := by
    rw [h.count, length_append, length_singleton]
  have hempty : (!s.lineHasText) = decide (((finished ++ [line]).getLast?).getD [] = []) := by
    rw [hgathers.hasText, not_decide_ne, getLast?_concat, getD_some]
  cases hpieces : s.pieces with
  | none =>
    -- the line is past the caps, and only counted
    have hpast := hgathers.none_iff.mp hpieces
    obtain ⟨bef, last, first, rest, hstored, hexceeds, rfl, hstands⟩ := h.stores.past hpast
    rw [finishLine_none hpieces hpast]
    have hne : first ++ rest ≠ [] := by
      intro hnil
      rw [(append_eq_nil_iff.mp hnil).1, forall₂_nil_right_iff, hstored] at hstands
      exact append_ne_nil_of_right_ne_nil _ (cons_ne_nil _ _) hstands
    refine ⟨⟨hcount, hempty, fun _ => ?_, ?_⟩, ?_, rfl, rfl⟩
    · rw [headD_concat_of_ne_nil hne]
      exact h.first hne
    · exact {
        storedBytes_eq := h.stores.storedBytes_eq
        noNewline := h.stores.noNewline
        complete := fun hfalse => by
          dsimp only at hfalse
          rw [hpast] at hfalse
          cases hfalse
        past := fun _ =>
          ⟨bef, last, first, rest ++ [line], hstored, hexceeds, append_assoc _ _ _, hstands⟩ }
    · exact {
        none_iff := iff_of_true rfl hpast
        hasText := rfl
        gathered := fun pieces hsome => by cases hsome }
  | some pieces =>
    have hpast : s.storedPastCaps = false := by
      rw [← Bool.not_eq_true, ← hgathers.none_iff, hpieces]
      exact nofun
    obtain ⟨hstands, hnot, hlength⟩ := hgathers.gathered pieces hpieces
    have hstored := h.stores.complete hpast
    have hall := Pointwise.concat hstored hstands
    rw [finishLine_some hpieces hpast]
    refine ⟨⟨hcount, hempty, fun _ => ?_, ?_⟩, ?_, rfl, rfl⟩
    · dsimp only
      rw [h.count, hlength]
      split_ifs with hzero
      · rw [length_eq_zero_iff.mp hzero]
        rfl
      · have hne : finished ≠ [] := fun hnil => hzero (by rw [hnil]; rfl)
        rw [headD_concat_of_ne_nil hne]
        exact h.first hne
    · exact {
        storedBytes_eq := by
          dsimp only
          rw [byteLength_join_concat, h.stores.storedBytes_eq]
        noNewline := fun l hl => by
          rcases mem_append.mp hl with hl | hl
          · exact h.stores.noNewline l hl
          · rw [mem_singleton.mp hl]
            exact hnot
        complete := fun _ => hall
        past := fun hcaps => by
          dsimp only at hcaps
          rw [Bool.or_eq_true, decide_eq_true_eq, decide_eq_true_eq,
            h.stores.storedBytes_eq] at hcaps
          exact ⟨_, _, _, [], rfl, hcaps, (append_nil _).symm, hall⟩ }
    · exact {
        none_iff := by
          dsimp only
          split_ifs with hcaps
          · exact iff_of_true rfl hcaps
          · exact iff_of_false nofun hcaps
        hasText := rfl
        gathered := fun pieces' hsome => by
          dsimp only at hsome
          split_ifs at hsome
          obtain rfl := Option.some.inj hsome
          exact ⟨.inl rfl, not_mem_nil, rfl⟩ }

theorem Reads.readNewline (h : Reads n limit before line s selection)
    (hopen : selected n limit before.length = true → selection ≠ none) :
    Reads n limit (before ++ [line]) [] (s.readNewline n (endOf n limit) selection).1
      (s.readNewline n (endOf n limit) selection).2 := by
  have hlength : (before ++ [line]).length = before.length + 1 := by
    rw [length_append, length_singleton]
  have hcurrent : current n limit (before ++ [line]) [] = [] := by
    rw [current, ite_self]
  have hbytes := h.bytes
  have hgathers := h.gathers
  rw [LineStream.readNewline, selects_eq, h.line_eq]
  cases hselected : selected n limit before.length with
  | false =>
    have hnone : selection = none := by
      by_contra hsome
      rw [h.selection_selected hsome] at hselected
      cases hselected
    have hwindow : window n limit (before ++ [line]) = window n limit before := by
      rw [window_concat, hselected, if_neg Bool.false_ne_true, append_nil]
    rw [if_neg Bool.false_ne_true]
    rw [current, hselected, if_neg Bool.false_ne_true] at hgathers
    subst hnone
    have hfinishes := h.toFinishes
    rw [← hwindow] at hfinishes
    exact {
      line_eq := hlength.symm
      selection_selected := fun h => absurd rfl h
      bytes := by
        rw [window_concat, hlength]
        cases hnext : selected n limit (before.length + 1) with
        | false =>
          rw [if_neg Bool.false_ne_true, append_nil]
          exact hbytes
        | true =>
          rw [window_of_selected_next hnext hselected] at hbytes ⊢
          exact hbytes
      toFinishes := hfinishes.beside _ _ _ _ _
      gathers := by
        rw [hcurrent]
        exact ⟨hgathers.none_iff, hgathers.hasText, hgathers.gathered⟩ }
  | true =>
    obtain ⟨measured, rfl⟩ := ne_none_iff_exists'.mp (hopen hselected)
    have hwindow : window n limit (before ++ [line]) = window n limit before ++ [line] := by
      rw [window_concat, hselected, if_pos rfl]
    rw [current, hselected, if_pos rfl] at hgathers
    obtain ⟨hfinishes, hgathers', hline, hsame⟩ := finishLine_finishes h.toFinishes hgathers
    rw [← hwindow] at hfinishes
    rw [if_pos rfl]
    have hnext := selected_last hselected
    split_ifs with hlast
    · exact {
        line_eq := by
          rw [hlength]
          exact congrArg (· + 1) (hline.trans h.line_eq)
        selection_selected := fun h => absurd rfl h
        bytes := by
          rw [window_concat, hlength, hnext.mpr ((endOf_eq _).mp hlast), if_neg Bool.false_ne_true,
            append_nil, ← hbytes, ← hsame]
          rfl
        toFinishes := hfinishes.beside _ _ _ _ _
        gathers := by
          rw [hcurrent]
          exact ⟨hgathers'.none_iff, hgathers'.hasText, hgathers'.gathered⟩ }
    · have hgoes : selected n limit (before.length + 1) = true := by
        rw [← Bool.not_eq_false, hnext, ← endOf_eq]
        exact hlast
      exact {
        line_eq := by
          rw [hlength]
          exact congrArg (· + 1) (hline.trans h.line_eq)
        selection_selected := fun _ => by
          rw [hlength]
          exact hgoes
        bytes := by
          have hpending : pending (some (measured ++ ['\n'])) = pending (some measured) + 1 :=
            byteLength_append _ _
          have hpositive : 0 < (window n limit (before ++ [line])).length := by
            rw [hwindow, length_append]
            exact Nat.succ_pos _
          rw [window_concat, hlength, hgoes, if_pos rfl, byteLength_join_concat, if_pos hpositive,
            byteLength_nil, ← hbytes, ← hsame]
          dsimp only [map_some]
          rw [hpending]
          omega
        toFinishes := hfinishes.beside _ _ _ _ _
        gathers := by
          rw [hcurrent]
          exact ⟨hgathers'.none_iff, hgathers'.hasText, hgathers'.gathered⟩ }

/-! ### The whole stream -/

theorem Reads.measure (h : Reads n limit before line s selection) :
    Reads n limit before line (s.measure selection) none := by
  have hbytes := h.bytes
  exact {
    line_eq := h.line_eq
    selection_selected := fun h => absurd rfl h
    bytes := hbytes
    toFinishes := h.beside _ _ _ _ _
    gathers := ⟨h.gathers.none_iff, h.gathers.hasText, h.gathers.gathered⟩ }

variable {texts : List (List Char)}

theorem Reads.selectFrom (h : Reads n limit before line s selection)
    (htexts : ∀ t ∈ text :: texts, '\n' ∉ t) {before' : List (List Char)} {line' : List Char}
    (heq : before' ++ [line'] = before ++ (line ++ text) :: texts) :
    Reads n limit before' line'
      (s.selectFrom n (endOf n limit) selection (text :: texts)) none := by
  have htext : '\n' ∉ text := htexts text mem_cons_self
  obtain ⟨hread, hopen⟩ := h.readText htext
  induction texts generalizing before line text s selection with
  | nil =>
    obtain ⟨rfl, hlast⟩ := append_inj' heq rfl
    obtain rfl := head_eq_of_cons_eq hlast
    exact hread.measure
  | cons next texts ih =>
    have hnext := hread.readNewline hopen
    have htexts' : ∀ t ∈ next :: texts, '\n' ∉ t := fun t ht =>
      htexts t (mem_cons_of_mem _ ht)
    have hnot : '\n' ∉ next := htexts' next mem_cons_self
    obtain ⟨hread', hopen'⟩ := hnext.readText hnot
    refine ih hnext htexts' ?_ hnot hread' hopen'
    rw [heq, append_assoc, singleton_append, nil_append]

theorem join_glue (before : List (List Char)) (line text : List Char) (texts : List (List Char)) :
    join (before ++ [line]) ++ join (text :: texts) = join (before ++ (line ++ text) :: texts) := by
  induction before with
  | nil =>
    have hsingle : join [line] = line := intercalate_singleton
    rw [nil_append, nil_append, hsingle]
    rcases eq_or_ne texts [] with rfl | hne
    · have htext : join [text] = text := intercalate_singleton
      have hboth : join [line ++ text] = line ++ text := intercalate_singleton
      rw [htext, hboth]
    · rw [join_cons_of_ne_nil _ hne, join_cons_of_ne_nil _ hne, append_assoc]
  | cons first before ih =>
    have hne : before ++ [line] ≠ [] := append_ne_nil_of_right_ne_nil _ (cons_ne_nil _ _)
    have hne' : before ++ (line ++ text) :: texts ≠ [] :=
      append_ne_nil_of_right_ne_nil _ (cons_ne_nil _ _)
    rw [cons_append, cons_append, join_cons_of_ne_nil _ hne, join_cons_of_ne_nil _ hne',
      ← ih, append_assoc, cons_append]

theorem not_mem_of_mem_splitOn (h : line ∈ text.splitOn '\n') : '\n' ∉ line := by
  induction text generalizing line with
  | nil =>
    rw [splitOn_nil, mem_singleton] at h
    rw [h]
    exact not_mem_nil
  | cons c text ih =>
    rw [splitOn_cons_eq_if_modifyHead] at h
    split_ifs at h with hc
    · rcases mem_cons.mp h with rfl | h
      · exact not_mem_nil
      · exact ih h
    · obtain ⟨first, rest, hsplit⟩ := exists_cons_of_ne_nil (splitOn_ne_nil '\n' text)
      rw [hsplit, modifyHead_cons] at h
      rw [hsplit] at ih
      rcases mem_cons.mp h with rfl | h
      · rw [mem_cons]
        rintro (rfl | hmem)
        · exact hc rfl
        · exact ih mem_cons_self hmem
      · exact ih (mem_cons_of_mem _ h)

theorem splitOn_append {whole more : List Char} (hwhole : whole.splitOn '\n' = before ++ [line])
    (hmore : more.splitOn '\n' = text :: texts) :
    (whole ++ more).splitOn '\n' = before ++ (line ++ text) :: texts := by
  have hjoin : whole ++ more = join (before ++ (line ++ text) :: texts) := by
    rw [← join_glue, ← hwhole, ← hmore, join, join, intercalate_splitOn, intercalate_splitOn]
  rw [hjoin]
  refine split_join (fun l hl => ?_) (append_ne_nil_of_right_ne_nil _ (cons_ne_nil _ _))
  rcases mem_append.mp hl with hl | hl
  · exact not_mem_of_mem_splitOn (hwhole ▸ mem_append_left _ hl)
  · rcases mem_cons.mp hl with rfl | hl
    · exact not_mem_append
        (not_mem_of_mem_splitOn (hwhole ▸ mem_append_right _ mem_cons_self))
        (not_mem_of_mem_splitOn (hmore ▸ mem_cons_self))
    · exact not_mem_of_mem_splitOn (hmore ▸ mem_cons_of_mem _ hl)

theorem select_reads (texts : List (List Char)) : ∃ before line,
    texts.flatten.splitOn '\n' = before ++ [line] ∧
      Reads n limit before line (texts.foldl (LineStream.select n (endOf n limit)) .new) none := by
  induction texts using reverseRecOn with
  | nil => exact ⟨[], [], rfl, new_reads n limit⟩
  | append_singleton texts text ih =>
    obtain ⟨before, line, hsplit, hreads⟩ := ih
    obtain ⟨first, rest, hfirst⟩ := exists_cons_of_ne_nil (splitOn_ne_nil '\n' text)
    have hall := splitOn_append hsplit hfirst
    obtain ⟨before', line', hconcat⟩ := eq_nil_or_concat'
      (before ++ (line ++ first) :: rest) |>.resolve_left
        (append_ne_nil_of_right_ne_nil _ (cons_ne_nil _ _))
    refine ⟨before', line', ?_, ?_⟩
    · rw [flatten_append, flatten_singleton, hall, hconcat]
    · rw [foldl_concat, LineStream.select, hfirst]
      refine hreads.selectFrom (fun t ht => not_mem_of_mem_splitOn (hfirst ▸ ht)) hconcat.symm

theorem Stores.represents (h : Stores s finished) :
    Represents DEFAULT_MAX_LINES DEFAULT_MAX_BYTES s.storedLines finished := by
  cases hpast : s.storedPastCaps with
  | false => exact ⟨finished, [], (append_nil _).symm, h.complete hpast, .inl rfl⟩
  | true =>
    obtain ⟨before, last, first, rest, hstored, hexceeds, hfinished, hstands⟩ := h.past hpast
    exact ⟨first, rest, hfinished, hstands, .inr ⟨before, last, hstored, hexceeds⟩⟩

theorem length_counted (lines : List (List Char)) : (counted lines).length =
    if byteLength (join lines) = 0 then 0
    else lines.length - if (lines.getLast?).getD [] = [] then 1 else 0 := by
  rcases eq_nil_or_concat' lines with rfl | ⟨before, last, rfl⟩
  · rfl
  · rw [counted, getLast?_concat, dropLast_concat, getD_some,
      byteLength_join_concat, length_append, length_singleton]
    by_cases hlast : last = []
    · subst hlast
      rw [if_pos rfl, if_pos rfl, byteLength_nil, Nat.add_sub_cancel]
      rcases eq_or_ne before [] with rfl | hne
      · rfl
      · rw [if_pos (length_pos_iff.mpr hne), if_neg (by omega)]
    · have hpos : 0 < byteLength last := by
        obtain ⟨c, rest, rfl⟩ := exists_cons_of_ne_nil hlast
        have hc := c.utf8Size_pos
        rw [byteLength_cons]
        omega
      rw [if_neg fun h => hlast (Option.some.inj h), if_neg hlast, if_neg (by omega),
        length_append, length_singleton]
      rfl

theorem finish_eq (hlines : ∀ l ∈ lines, '\n' ∉ l) (hfinishes : Finishes s lines)
    (hbytes : s.selectedBytes = byteLength (join lines)) :
    ({ truncateHead DEFAULT_MAX_LINES DEFAULT_MAX_BYTES (join s.storedLines) with
      totalLines :=
        if s.selectedBytes = 0 then 0 else s.selectedLines - if s.lastLineEmpty then 1 else 0
      totalBytes := s.selectedBytes } : HeadTruncation) =
      truncateHead DEFAULT_MAX_LINES DEFAULT_MAX_BYTES (join lines) := by
  have htotal : (if s.selectedBytes = 0 then 0
      else s.selectedLines - if s.lastLineEmpty = true then 1 else 0) = (counted lines).length := by
    rw [length_counted, hbytes, hfinishes.count, hfinishes.lastEmpty]
    simp only [decide_eq_true_eq]
  rw [htotal, hbytes]
  exact truncateHead_represents hfinishes.stores.represents hfinishes.stores.noNewline hlines

theorem Reads.finish (h : Reads n limit before line s none)
    (hlines : ∀ l ∈ before ++ [line], '\n' ∉ l) :
    (s.finish n (endOf n limit)).totalFileLines = (before ++ [line]).length ∧
      (s.finish n (endOf n limit)).truncation = truncateHead DEFAULT_MAX_LINES DEFAULT_MAX_BYTES
        (join (window n limit (before ++ [line]))) ∧
      (window n limit (before ++ [line]) ≠ [] → (s.finish n (endOf n limit)).firstLineBytes =
        byteLength ((window n limit (before ++ [line])).headD [])) := by
  have hwindow : ∀ l ∈ window n limit (before ++ [line]), '\n' ∉ l := fun l hl =>
    hlines l ((window_sublist _).mem hl)
  have hbytes := h.bytes
  have hgathers := h.gathers
  rw [LineStream.finish, selects_eq, h.line_eq, length_append, length_singleton]
  cases hselected : selected n limit before.length with
  | false =>
    have heq : window n limit (before ++ [line]) = window n limit before := by
      rw [window_concat, hselected, if_neg Bool.false_ne_true, append_nil]
    have hfinishes := h.toFinishes
    rw [← heq] at hfinishes
    rw [if_neg Bool.false_ne_true]
    exact ⟨congrArg (· + 1) h.line_eq, finish_eq hwindow hfinishes hbytes, hfinishes.first⟩
  | true =>
    have heq : window n limit (before ++ [line]) = window n limit before ++ [line] := by
      rw [window_concat, hselected, if_pos rfl]
    rw [current, hselected, if_pos rfl] at hgathers
    obtain ⟨hfinishes, -, hline, hsame⟩ := finishLine_finishes h.toFinishes hgathers
    rw [← heq] at hfinishes
    rw [if_pos rfl]
    exact ⟨congrArg (· + 1) (hline.trans h.line_eq),
      finish_eq hwindow hfinishes (hsame.trans hbytes), hfinishes.first⟩

end

/-! ### Numbers -/

theorem trunc_natCast (n : ℕ) : trunc (n : ℚ) = n := by
  rw [trunc, if_pos (Nat.cast_nonneg n), Int.floor_natCast]

theorem sliceIndex_natCast (length n : ℕ) : sliceIndex length (n : ℚ) = min n length := by
  rw [sliceIndex, trunc_natCast, if_neg (not_lt.mpr (Int.natCast_nonneg n)), Int.toNat_natCast]

theorem slice_natCast {α : Type*} (lines : List α) (n : ℕ) (limit : Option ℕ) :
    slice lines n (limit.map fun limit : ℕ => min ((n : ℚ) + (limit : ℚ)) lines.length) =
      window n limit lines := by
  have hdrop : ∀ l : List α, l.length ≤ lines.length → l.drop (min n lines.length) = l.drop n := by
    intro l hle
    rcases le_total n lines.length with h | h
    · rw [min_eq_left h]
    · rw [min_eq_right h, drop_eq_nil_of_le hle, drop_eq_nil_of_le (hle.trans h)]
  rw [slice, window, sliceIndex_natCast]
  cases limit with
  | none =>
    rw [map_none, map_none, map_none, getD_none, take_length]
    exact hdrop lines le_rfl
  | some limit =>
    have hmin : min ((n : ℚ) + (limit : ℚ)) (lines.length : ℚ) =
        ((min (n + limit) lines.length : ℕ) : ℚ) := by
      rw [Nat.cast_min, Nat.cast_add]
    rw [map_some, map_some, map_some, getD_some, getD_some, hmin, sliceIndex_natCast, Nat.min_assoc,
      min_self, hdrop _ (length_take_le' _ _), ← take_eq_take_min]

theorem exists_natCast {x : ℚ} (hinteger : isInteger x = true) (hnonneg : 0 ≤ x) :
    ∃ n : ℕ, x = n := by
  have hden : x.den = 1 := of_decide_eq_true hinteger
  have hnum : ((x.num.toNat : ℤ) : ℚ) = x := by
    rw [Int.toNat_of_nonneg (Rat.num_nonneg.mpr hnonneg)]
    exact Rat.coe_int_num_of_den_eq_one hden
  exact ⟨x.num.toNat, hnum.symm⟩

variable {offset limit : Option ℚ}

theorem exists_startLine (hrange : isStreamableRange offset limit = true) :
    ∃ n : ℕ, startLineOf offset = n := by
  rw [isStreamableRange, Bool.and_eq_true] at hrange
  cases offset with
  | none => exact ⟨0, rfl⟩
  | some offset =>
    have hden : offset.den = 1 := of_decide_eq_true hrange.1
    rw [startLineOf]
    split_ifs with hzero
    · exact ⟨0, rfl⟩
    · have hcast : max 0 (offset - 1) = ((max 0 (offset.num - 1) : ℤ) : ℚ) := by
        rw [Int.cast_max, Int.cast_zero, Int.cast_sub, Rat.coe_int_num_of_den_eq_one hden,
          Int.cast_one]
      obtain ⟨n, hn⟩ := Int.eq_ofNat_of_zero_le (le_max_left 0 (offset.num - 1))
      exact ⟨n, by rw [hcast, hn, Int.cast_natCast]⟩

theorem exists_limit (hrange : isStreamableRange offset limit = true) :
    ∃ lim : Option ℕ, limit = lim.map fun lim : ℕ => (lim : ℚ) := by
  rw [isStreamableRange, Bool.and_eq_true] at hrange
  cases limit with
  | none => exact ⟨none, rfl⟩
  | some limit =>
    have hlimit := hrange.2
    rw [all_some, Bool.and_eq_true, decide_eq_true_eq] at hlimit
    obtain ⟨n, rfl⟩ := exists_natCast hlimit.1 hlimit.2
    exact ⟨some n, rfl⟩

theorem window_head {n : ℕ} {limit : Option ℕ} {lines : List (List Char)}
    (hne : window n limit lines ≠ []) : lines[n]? = some ((window n limit lines).headD []) := by
  obtain ⟨first, rest, hwindow⟩ := exists_cons_of_ne_nil hne
  have hfirst : (window n limit lines)[0]? = some first := by rw [hwindow]; rfl
  rw [window, getElem?_drop, add_zero] at hfirst
  rw [hwindow, headD_cons]
  rw [getElem?_take] at hfirst
  split_ifs at hfirst
  exact hfirst

theorem firstLineExceedsLimit_nil (maxLines maxBytes : ℕ) :
    (truncateHead maxLines maxBytes (join [])).firstLineExceedsLimit = false := by
  have hfits : fits maxLines maxBytes (join []) := ⟨Nat.zero_le _, Nat.zero_le _⟩
  rw [truncateHead]
  dsimp only
  rw [if_pos hfits]

theorem selectLinesFromText_natCast (text : List Char) (n : ℕ) (limit : Option ℕ) :
    selectLinesFromText text n (limit.map fun limit : ℕ => (limit : ℚ)) = .ok
      { totalFileLines := (text.splitOn '\n').length
        truncation := truncateHead DEFAULT_MAX_LINES DEFAULT_MAX_BYTES
          (join (window n limit (text.splitOn '\n')))
        firstLineBytes :=
          if (truncateHead DEFAULT_MAX_LINES DEFAULT_MAX_BYTES
              (join (window n limit (text.splitOn '\n')))).firstLineExceedsLimit then
            byteLength ((window n limit (text.splitOn '\n')).headD [])
          else 0 } := by
  have hslice : slice (text.splitOn '\n') n
      ((limit.map fun limit : ℕ => (limit : ℚ)).map
        fun limit => min ((n : ℚ) + limit) (text.splitOn '\n').length) =
      window n limit (text.splitOn '\n') := by
    rw [Option.map_map]
    exact slice_natCast _ _ _
  rw [selectLinesFromText, hslice]
  split_ifs with hexceeds
  · have hne : window n limit (text.splitOn '\n') ≠ [] := fun hnil => by
      rw [hnil, firstLineExceedsLimit_nil] at hexceeds
      cases hexceeds
    have hinteger : isInteger (n : ℚ) = true := decide_eq_true (Rat.den_natCast n)
    rw [lineBytesAt, hinteger, if_pos rfl, Rat.num_natCast, Int.toNat_natCast, window_head hne]
    rfl
  · rfl

/-- Lines read from chunks are those read from the whole file. -/
theorem selectLinesFromStream_eq {δ : Type*} (D : TextDecoder δ) (toText : List UInt8 → List Char)
    (hjoin : ∀ chunks, (decodeChunks D D.new chunks).flatten = toText chunks.flatten)
    (offset limit : Option ℚ) (hrange : isStreamableRange offset limit = true)
    (chunks : List (List UInt8)) :
    ∃ selected, selectLinesFromBuffer toText chunks.flatten (startLineOf offset) limit =
        .ok selected ∧
      (selectLinesFromStream D chunks (startLineOf offset) limit).totalFileLines =
        selected.totalFileLines ∧
      (selectLinesFromStream D chunks (startLineOf offset) limit).truncation =
        selected.truncation ∧
      (selected.truncation.firstLineExceedsLimit = true →
        (selectLinesFromStream D chunks (startLineOf offset) limit).firstLineBytes =
          selected.firstLineBytes) := by
  obtain ⟨n, hn⟩ := exists_startLine hrange
  obtain ⟨limit, rfl⟩ := exists_limit hrange
  have hend : (limit.map fun limit : ℕ => (limit : ℚ)).map ((n : ℚ) + ·) = endOf n limit := by
    rw [endOf, Option.map_map, Option.map_map]
    refine congrArg (fun f => Option.map f limit) (funext fun limit => ?_)
    exact (Nat.cast_add n limit).symm
  obtain ⟨before, line, hsplit, hreads⟩ :=
    @select_reads n limit (decodeChunks D D.new chunks)
  rw [hjoin] at hsplit
  obtain ⟨htotal, htruncation, hfirst⟩ :=
    hreads.finish fun l hl => not_mem_of_mem_splitOn (hsplit ▸ hl)
  rw [hn, selectLinesFromBuffer, selectLinesFromStream, hend, selectLinesFromText_natCast, hsplit]
  refine ⟨_, rfl, htotal, htruncation, fun hexceeds => ?_⟩
  dsimp only at hexceeds ⊢
  rw [if_pos hexceeds]
  refine hfirst fun hnil => ?_
  rw [hnil, firstLineExceedsLimit_nil] at hexceeds
  cases hexceeds

/-- Two lines in three chunks, from the second line on. -/
theorem selectLinesFromStream_eq_twoLines : ∃ selected,
    selectLinesFromBuffer (map fun byte => Char.ofNat byte.toNat) [97, 98, 99, 10, 100, 101]
        (startLineOf (some 2)) none = .ok selected ∧
      (selectLinesFromStream singleBytes [[97, 98], [99, 10, 100], [101]] (startLineOf (some 2))
        none).truncation = selected.truncation := by
  have hjoin : ∀ chunks, (decodeChunks singleBytes singleBytes.new chunks).flatten =
      chunks.flatten.map fun byte => Char.ofNat byte.toNat := by
    intro chunks
    induction chunks with
    | nil => rfl
    | cons chunk chunks ih =>
      rw [flatten_cons, map_append, ← ih]
      rfl
  obtain ⟨selected, hselected, -, htruncation, -⟩ := selectLinesFromStream_eq singleBytes _ hjoin
    (some 2) none rfl [[97, 98], [99, 10, 100], [101]]
  exact ⟨selected, hselected, htruncation⟩

end KnightCode.Output
