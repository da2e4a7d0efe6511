import KnightCode.Output.ReadStream

/-!
# Reading a file page by page

A read shows lines of a file and, when more follow, a notice with the next offset. Reads that follow
the notices show all lines in order, up to the last one or one that alone exceeds the byte limit.
The limit that a truncation names is one that is exceeded, but for a text that exceeds the byte
limit by the newline it ends with alone.
-/

namespace KnightCode.Output

open List Option

/-- The notice behind the lines that a read shows. -/
inductive Notice
  | tooLong (line : ℚ) (firstLineBytes : ℕ)
  | truncated (truncatedBy : Option TruncatedBy) (startLine endLine : ℚ) (totalFileLines : ℕ)
    (nextOffset : ℚ)
  | remaining (lines nextOffset : ℚ)

structure Page where
  content : List Char
  notice : Option Notice
  lineCount : ℕ
  truncation : HeadTruncation

def Page.nextOffset (page : Page) : Option ℚ :=
  match page.notice with
  | some (.truncated _ _ _ _ nextOffset) => some nextOffset
  | some (.remaining _ nextOffset) => some nextOffset
  | _ => none

def showSelected (selected : SelectedLines) (startLine : ℚ) (limit : Option ℚ) : Page :=
  let truncation := selected.truncation
  let startLineDisplay := startLine + 1
  let userLimitedLines :=
    limit.map fun limit => min (startLine + limit) selected.totalFileLines - startLine
  if truncation.firstLineExceedsLimit then
    { content := []
      notice := some (.tooLong startLineDisplay selected.firstLineBytes)
      lineCount := 0
      truncation }
  else if truncation.truncated then
    let endLineDisplay := startLineDisplay + truncation.outputLines - 1
    { content := truncation.content
      notice := some (.truncated truncation.truncatedBy startLineDisplay endLineDisplay
        selected.totalFileLines (endLineDisplay + 1))
      lineCount := truncation.outputLines
      truncation }
  else
    { content := truncation.content
      notice := userLimitedLines.bind fun lines =>
        if startLine + lines < selected.totalFileLines then
          some (.remaining (selected.totalFileLines - (startLine + lines)) (startLine + lines + 1))
        else none
      lineCount := truncation.outputLines
      truncation }

def readPage (text : List Char) (offset limit : Option ℚ) : Except ReadError Page :=
  (selectLinesFromText text (startLineOf offset) limit).bind fun selected =>
    if selected.totalFileLines ≤ startLineOf offset then
      .error (.beyondEnd offset selected.totalFileLines)
    else .ok (showSelected selected (startLineOf offset) limit)

structure Read where
  offset : Option ℚ
  limit : Option ℚ
  result : Except ReadError Page

def readPages (text : List Char) : Option ℚ → List (Option ℚ) → List Read
  | _, [] => []
  | offset, limit :: limits =>
    ⟨offset, limit, readPage text offset limit⟩ ::
      match readPage text offset limit with
      | .ok page =>
        match page.nextOffset with
        | some nextOffset => readPages text (some nextOffset) limits
        | none => []
      | .error _ => []

theorem readPages_cons (text : List Char) (offset limit : Option ℚ) (limits : List (Option ℚ)) :
    readPages text offset (limit :: limits) = ⟨offset, limit, readPage text offset limit⟩ ::
      match readPage text offset limit with
      | .ok page =>
        match page.nextOffset with
        | some nextOffset => readPages text (some nextOffset) limits
        | none => []
      | .error _ => [] := (rfl)

/-! ### What the limit is for -/

section

variable {maxLines maxBytes : ℕ} {content : List Char}

def HeadTruncation.NamesLimit (t : HeadTruncation) : Prop :=
  (t.truncatedBy = some .lines → t.maxLines < t.totalLines) ∧
    (t.truncatedBy = some .bytes → t.maxBytes < t.totalBytes)

def NewlineOver (maxLines maxBytes : ℕ) (content : List Char) : Prop :=
  (splitLinesForCounting content).length ≤ maxLines ∧ byteLength content = maxBytes + 1 ∧
    content.getLast? = some '\n'

/-- What truncation gives: everything, nothing of a line that is too long, or the first lines. -/
inductive HeadCases (maxLines maxBytes : ℕ) (content : List Char) (t : HeadTruncation) : Prop
  | all (hfits : fits maxLines maxBytes content) (htruncated : t.truncated = false)
      (hfirst : t.firstLineExceedsLimit = false) (hcontent : t.content = content)
      (hby : t.truncatedBy = none)
  | long (hfirst : t.firstLineExceedsLimit = true)
      (hover : maxBytes < byteLength ((splitLinesForCounting content).headD []))
      (hby : t.truncatedBy = some .bytes)
  | cut (taken rest : List (List Char)) (htruncated : t.truncated = true)
      (hfirst : t.firstLineExceedsLimit = false)
      (hlines : splitLinesForCounting content = taken ++ rest) (hne : taken ≠ [])
      (hcontent : t.content = join taken) (houtput : t.outputLines = taken.length)
      (hrest : rest ≠ [] ∨ NewlineOver maxLines maxBytes content)
      (hby : t.truncatedBy = some .lines ∧ (maxLines < (splitLinesForCounting content).length ∨
        NewlineOver maxLines maxBytes content) ∨ t.truncatedBy = some .bytes ∧ maxBytes < byteLength
        (join (splitLinesForCounting content)))

theorem byteLength_ended {before : List Char} (hfits : byteLength before ≤ maxBytes)
    (hover : maxBytes < byteLength (before ++ ['\n'])) :
    byteLength (before ++ ['\n']) = maxBytes + 1 := by
  rw [byteLength_append, byteLength_cons, byteLength_newline, byteLength_nil] at hover ⊢
  omega

theorem newlineOver_of_join (hfits : ¬fits maxLines maxBytes content)
    (hlines : (splitLinesForCounting content).length ≤ maxLines)
    (hbytes : byteLength (join (splitLinesForCounting content)) ≤ maxBytes) :
    NewlineOver maxLines maxBytes content := by
  have hover : maxBytes < byteLength content := by
    by_contra hle
    exact hfits ⟨hlines, not_lt.mp hle⟩
  rcases text_cases content with rfl | ⟨before, rfl⟩ | ⟨-, hlast⟩
  · exact absurd hover (Nat.not_lt_zero _)
  · rw [join_ended] at hbytes
    exact ⟨hlines, byteLength_ended hbytes hover, getLast?_concat⟩
  · rw [join_open hlast] at hbytes
    exact absurd hbytes (not_le.mpr hover)

theorem NewlineOver.join_le (h : NewlineOver maxLines maxBytes content) :
    byteLength (join (splitLinesForCounting content)) ≤ maxBytes := by
  obtain ⟨-, hbytes, hlast⟩ := h
  obtain ⟨before, rfl⟩ := getLast?_eq_some_iff.mp hlast
  rw [byteLength_append, byteLength_cons, byteLength_newline, byteLength_nil] at hbytes
  rw [join_ended]
  omega

theorem NewlineOver.over (h : NewlineOver maxLines maxBytes content) :
    maxBytes < byteLength content := by
  rw [h.2.1]
  exact lt_add_one _

theorem headD_le_join (lines : List (List Char)) :
    byteLength (lines.headD []) ≤ byteLength (join lines) := by
  cases lines with
  | nil => exact Nat.zero_le _
  | cons line lines => exact byteLength_le_join_of_mem mem_cons_self

theorem truncateHead_cases (hpos : 0 < maxLines) (content : List Char) :
    HeadCases maxLines maxBytes content (truncateHead maxLines maxBytes content) := by
  by_cases hfits : fits maxLines maxBytes content
  · rw [truncateHead]
    dsimp only
    rw [if_pos hfits]
    exact .all hfits rfl rfl rfl rfl
  by_cases hover : maxBytes < byteLength ((splitLinesForCounting content).headD [])
  · rw [truncateHead]
    dsimp only
    rw [if_neg hfits, if_pos hover]
    exact .long rfl hover rfl
  obtain ⟨hwithin, taken, rest, hlines, houtput, hends⟩ :=
    collectHead_collects (head_start_within maxLines maxBytes) (splitLinesForCounting content)
  have houtputs : (collectHead maxLines maxBytes .start
      (splitLinesForCounting content)).outputLines = taken := houtput
  have hne : taken ≠ [] := by
    rintro rfl
    rw [houtputs] at hends
    rcases hends with ⟨rfl, -⟩ | ⟨hfull, -⟩ | ⟨-, -, line, more, rfl, hbytes⟩
    · have hnil : content = [] := splitLinesForCounting_eq_nil.mp hlines
      subst hnil
      exact hfits ⟨Nat.zero_le _, Nat.zero_le _⟩
    · exact absurd hfull hpos.ne
    · have hsingle : join [line] = line := intercalate_singleton
      rw [nil_append, hsingle] at hbytes
      rw [hlines] at hover
      exact hover hbytes
  have hbytes := hwithin.bytes_le
  have hlength := hwithin.lines_le
  rw [hwithin.outputBytes_eq, houtputs] at hbytes
  rw [houtputs] at hlength hends
  have hnewline : rest = [] → NewlineOver maxLines maxBytes content := by
    rintro rfl
    rw [append_nil] at hlines
    refine newlineOver_of_join hfits ?_ ?_
    · rw [hlines]
      exact hlength
    · rw [hlines]
      exact hbytes
  rw [truncateHead]
  dsimp only
  rw [if_neg hfits, if_neg hover, houtputs, hwithin.outputBytes_eq, houtputs]
  refine .cut taken rest rfl rfl hlines hne rfl rfl ?_ ?_
  · by_cases hrest : rest = []
    · exact .inr (hnewline hrest)
    · exact .inl hrest
  · rcases hends with ⟨rfl, hby⟩ | ⟨hfull, hby⟩ | ⟨hlt, hby, line, more, rfl, hbytes'⟩
    · left
      refine ⟨?_, .inr (hnewline rfl)⟩
      rw [hby]
      exact congrArg some (ite_self _)
    · left
      rw [if_pos ⟨hfull.ge, hbytes⟩]
      refine ⟨rfl, ?_⟩
      by_cases hrest : rest = []
      · exact .inr (hnewline hrest)
      · have hlong := length_pos_iff.mpr hrest
        rw [hlines, length_append]
        omega
    · right
      rw [if_neg fun h => absurd h.1 (not_le.mpr hlt), hby]
      refine ⟨rfl, hbytes'.trans_le ?_⟩
      have happend : taken ++ line :: more = taken ++ [line] ++ more := by
        rw [append_assoc, singleton_append]
      rw [hlines, happend]
      exact byteLength_join_le _ _

@[simp] theorem truncateHead_totalLines (content : List Char) :
    (truncateHead maxLines maxBytes content).totalLines =
      (splitLinesForCounting content).length := by
  rw [truncateHead]
  dsimp only
  split_ifs <;> rfl

@[simp] theorem truncateHead_totalBytes (content : List Char) :
    (truncateHead maxLines maxBytes content).totalBytes = byteLength content := by
  rw [truncateHead]
  dsimp only
  split_ifs <;> rfl

@[simp] theorem truncateHead_maxLines (content : List Char) :
    (truncateHead maxLines maxBytes content).maxLines = maxLines := by
  rw [truncateHead]
  dsimp only
  split_ifs <;> rfl

@[simp] theorem truncateHead_maxBytes (content : List Char) :
    (truncateHead maxLines maxBytes content).maxBytes = maxBytes := by
  rw [truncateHead]
  dsimp only
  split_ifs <;> rfl

theorem truncateHead_namesLimit (hpos : 0 < maxLines) (content : List Char) :
    (truncateHead maxLines maxBytes content).NamesLimit ↔
      ¬NewlineOver maxLines maxBytes content := by
  have hcases := @truncateHead_cases _ maxBytes hpos content
  rw [HeadTruncation.NamesLimit, truncateHead_totalLines, truncateHead_totalBytes,
    truncateHead_maxLines, truncateHead_maxBytes]
  rcases hcases with ⟨hfits, -, -, -, hby⟩ | ⟨-, hover, hby⟩ |
    ⟨taken, rest, -, -, hlines, hne, -, -, -, hby⟩
  · rw [hby]
    refine iff_of_true ⟨?_, ?_⟩ fun h => absurd hfits.2 (not_le.mpr h.over)
    · intro h
      cases h
    · intro h
      cases h
  · have hjoin := hover.trans_le (headD_le_join _)
    rw [hby]
    refine iff_of_true ⟨?_, fun _ => hjoin.trans_le (join_le_byteLength content)⟩ fun h =>
      absurd h.join_le (not_le.mpr hjoin)
    intro h
    cases h
  · rcases hby with ⟨hby, hover⟩ | ⟨hby, hjoin⟩
    · rw [hby]
      constructor
      · intro hnames h
        exact absurd h.1 (not_le.mpr (hnames.1 rfl))
      · intro hnot
        refine ⟨fun _ => hover.resolve_right hnot, ?_⟩
        intro h
        cases h
    · rw [hby]
      refine iff_of_true ⟨?_, fun _ => hjoin.trans_le (join_le_byteLength content)⟩ fun h =>
        absurd h.join_le (not_le.mpr hjoin)
      intro h
      cases h

end

/-! ### What a read selects -/

def selectedContent (text : List Char) (offset limit : Option ℚ) : List Char :=
  join (slice (text.splitOn '\n') (startLineOf offset)
    (limit.map fun limit => min (startLineOf offset + limit) (text.splitOn '\n').length))

/-- The line behind the last selected one. -/
def stopLine (lines : List (List Char)) (startLine : ℚ) (limit : Option ℚ) : ℕ :=
  (limit.map fun limit => ⌊min (startLine + limit) lines.length⌋₊).getD lines.length

section

variable {lines : List (List Char)} {startLine : ℚ} {limit : Option ℚ}

theorem startLineOf_nonneg (offset : Option ℚ) : 0 ≤ startLineOf offset := by
  cases offset with
  | none => exact le_rfl
  | some offset =>
    rw [startLineOf]
    split_ifs
    · exact le_rfl
    · exact le_max_left _ _

theorem sub_one_le_startLineOf (offset : Option ℚ) : offset.getD 1 ≤ startLineOf offset + 1 := by
  cases offset with
  | none => exact (zero_add (1 : ℚ)).ge
  | some offset =>
    rw [startLineOf, getD_some]
    split_ifs with hzero
    · rw [hzero]
      norm_num
    · exact sub_le_iff_le_add.mp (le_max_right _ _)

theorem startLineOf_next (hnonneg : 0 ≤ startLine) :
    startLineOf (some (startLine + 1)) = startLine := by
  have hne : startLine + 1 ≠ 0 := (add_pos_of_nonneg_of_pos hnonneg one_pos).ne'
  rw [startLineOf, if_neg hne, add_sub_cancel_right, max_eq_right hnonneg]

theorem sliceIndex_of_nonneg {x : ℚ} (hx : 0 ≤ x) (length : ℕ) :
    sliceIndex length x = min ⌊x⌋₊ length := by
  rw [sliceIndex, trunc, if_pos hx, if_neg (not_lt.mpr (Int.floor_nonneg.mpr hx)), Int.floor_toNat]

theorem floor_lt_length (hlt : startLine < lines.length) (hnonneg : 0 ≤ startLine) :
    ⌊startLine⌋₊ < lines.length :=
  (Nat.floor_lt hnonneg).mpr hlt

theorem stopLine_le (lines : List (List Char)) (startLine : ℚ) (limit : Option ℚ) :
    stopLine lines startLine limit ≤ lines.length := by
  cases limit with
  | none => exact le_rfl
  | some limit =>
    rw [stopLine, map_some, getD_some]
    exact Nat.floor_le_of_le (min_le_right _ _)

theorem slice_eq (hnonneg : 0 ≤ startLine) (hlt : startLine < lines.length)
    (hlimit : ∀ l ∈ limit, 1 ≤ l) :
    slice lines startLine (limit.map fun limit => min (startLine + limit) lines.length) =
      (lines.take (stopLine lines startLine limit)).drop ⌊startLine⌋₊ := by
  have hstart : sliceIndex lines.length startLine = ⌊startLine⌋₊ := by
    rw [sliceIndex_of_nonneg hnonneg]
    exact min_eq_left (floor_lt_length hlt hnonneg).le
  rw [slice, hstart]
  cases limit with
  | none => rfl
  | some limit =>
    have hstop := stopLine_le lines startLine (some limit)
    rw [stopLine, map_some, getD_some] at hstop
    have hend : 0 ≤ min (startLine + limit) (lines.length : ℚ) := by
      refine le_min ?_ (Nat.cast_nonneg _)
      have hone := hlimit limit rfl
      linarith
    rw [stopLine, map_some, map_some, map_some, getD_some,
      getD_some, sliceIndex_of_nonneg hend, min_eq_left hstop]

end

/-! ### One page -/

/-- What a read of the lines from `a` on shows, and where it says to continue: all other lines,
some of them, or nothing of a line over the byte limit. -/
inductive Shows (lines : List (List Char)) (offset : Option ℚ) (a : ℕ) :
    Except ReadError Page → Option (ℚ × ℕ) → Prop
  | last (page : Page) (hstart : a < lines.length) (hcontent : page.content = join (lines.drop a))
      (hnotice : page.notice = none) : Shows lines offset a (.ok page) none
  | more (page : Page) (next : ℚ) (b : ℕ) (hstart : a < b) (hmore : b < lines.length)
      (hcontent : page.content = join ((lines.take b).drop a))
      (hnext : page.nextOffset = some next) (hlt : offset.getD 1 < next)
      (hline : ⌊startLineOf (some next)⌋₊ = b) (hwithin : startLineOf (some next) < lines.length) :
      Shows lines offset a (.ok page) (some (next, b))
  | long (page : Page) (line : List Char) (hline : lines[a]? = some line)
      (hover : DEFAULT_MAX_BYTES < byteLength line) (hcontent : page.content = [])
      (hnext : page.nextOffset = none) : Shows lines offset a (.ok page) none
  | longAt (line : List Char) (hline : lines[a]? = some line)
      (hover : DEFAULT_MAX_BYTES < byteLength line) :
      Shows lines offset a (.error .invalidArgument) none

def selectedTruncation (text : List Char) (offset limit : Option ℚ) : HeadTruncation :=
  truncateHead DEFAULT_MAX_LINES DEFAULT_MAX_BYTES (selectedContent text offset limit)

section

variable {text : List Char} {offset limit : Option ℚ}

theorem DEFAULT_MAX_LINES_pos : 0 < DEFAULT_MAX_LINES := by decide

/-- A read from a line of the file shows what it selected, unless its first line is too long and has
no place to measure it at. -/
theorem readPage_eq (hlt : startLineOf offset < (text.splitOn '\n').length) :
    (∃ firstLineBytes, readPage text offset limit = .ok (showSelected ⟨(text.splitOn '\n').length,
        selectedTruncation text offset limit, firstLineBytes⟩ (startLineOf offset) limit)) ∨
      (selectedTruncation text offset limit).firstLineExceedsLimit = true ∧
        readPage text offset limit = .error .invalidArgument := by
  rw [readPage, selectLinesFromText, ← selectedContent, ← selectedTruncation]
  have hnot := not_le.mpr hlt
  by_cases hfirst : (selectedTruncation text offset limit).firstLineExceedsLimit = true
  · rw [if_pos hfirst]
    cases hbytes : lineBytesAt (text.splitOn '\n') (startLineOf offset) with
    | ok firstLineBytes =>
      left
      refine ⟨firstLineBytes, ?_⟩
      rw [Except.map, Except.bind, if_neg hnot]
    | error error =>
      right
      rw [lineBytesAt] at hbytes
      split at hbytes
      · cases hbytes
      · cases hbytes
        exact ⟨hfirst, rfl⟩
  · left
    refine ⟨0, ?_⟩
    rw [if_neg hfirst, Except.map, Except.bind, if_neg hnot]

theorem readPage_truncation {page : Page} (hpage : readPage text offset limit = .ok page)
    (hlt : startLineOf offset < (text.splitOn '\n').length) :
    page.truncation = selectedTruncation text offset limit := by
  rcases @readPage_eq _ _ limit hlt with ⟨firstLineBytes, heq⟩ | ⟨-, heq⟩
  · rw [heq] at hpage
    cases hpage
    rw [showSelected]
    dsimp only
    split_ifs <;> rfl
  · rw [heq] at hpage
    cases hpage

theorem counted_take (lines : List (List Char)) :
    counted lines = lines.take (counted lines).length := by
  rw [counted]
  split_ifs
  · rw [length_dropLast, dropLast_eq_take]
  · rw [take_length]

theorem counted_length_le (lines : List (List Char)) : (counted lines).length ≤ lines.length := by
  rw [counted]
  split_ifs
  · rw [length_dropLast]
    exact Nat.sub_le _ _
  · exact le_rfl

variable {lines : List (List Char)}

theorem counted_length_lt {maxLines maxBytes : ℕ} (hlines : ∀ line ∈ lines, '\n' ∉ line)
    (hover : NewlineOver maxLines maxBytes (join lines)) :
    (counted lines).length < lines.length := by
  by_contra hle
  have hall : counted lines = lines := by
    rw [counted_take, take_of_length_le (not_lt.mp hle)]
  have hjoin := hover.join_le
  rw [splitLinesForCounting_join hlines, hall] at hjoin
  exact absurd hover.over (not_lt.mpr hjoin)

theorem offset_lt_next {startLine : ℚ} (hoffset : startLineOf offset < startLine) :
    offset.getD 1 < startLine + 1 :=
  (sub_one_le_startLineOf offset).trans_lt (add_lt_add_left hoffset 1)

theorem shows_all {t : HeadTruncation} {firstLineBytes : ℕ}
    (hlt : startLineOf offset < lines.length) (hlimit : ∀ l ∈ limit, 1 ≤ l)
    (hfirst : t.firstLineExceedsLimit = false) (htruncated : t.truncated = false)
    (hcontent : t.content =
      join ((lines.take (stopLine lines (startLineOf offset) limit)).drop ⌊startLineOf offset⌋₊)) :
    ∃ follow, Shows lines offset ⌊startLineOf offset⌋₊
      (.ok (showSelected ⟨lines.length, t, firstLineBytes⟩ (startLineOf offset) limit)) follow := by
  have hnonneg := startLineOf_nonneg offset
  have hfloor := floor_lt_length hlt hnonneg
  have hpage : showSelected ⟨lines.length, t, firstLineBytes⟩ (startLineOf offset) limit =
              { content := t.content
                notice := (limit.map fun limit => min (startLineOf offset + limit)
                  (lines.length : ℚ) - startLineOf offset).bind fun count =>
                    if startLineOf offset + count < lines.length then
                      some (.remaining (lines.length - (startLineOf offset + count))
                        (startLineOf offset + count + 1))
                    else none
                lineCount := t.outputLines
                truncation := t } := by
    rw [showSelected]
    dsimp only
    rw [if_neg (by rw [hfirst]; exact Bool.false_ne_true),
      if_neg (by rw [htruncated]; exact Bool.false_ne_true)]
  rw [hpage]
  cases limit with
  | none =>
    refine ⟨none, .last _ hfloor ?_ rfl⟩
    dsimp only
    rw [hcontent, stopLine, map_none, getD_none, take_length]
  | some limit =>
    rw [stopLine, map_some, getD_some] at hcontent
    by_cases hmore : startLineOf offset + limit < lines.length
    · have hone : 1 ≤ limit := hlimit limit rfl
      have hpos : 0 ≤ startLineOf offset + limit := by linarith
      have hafter : startLineOf offset < startLineOf offset + limit := by linarith
      rw [min_eq_left hmore.le] at hcontent
      refine ⟨some (startLineOf offset + limit + 1, ⌊startLineOf offset + limit⌋₊),
        .more _ _ _ ?_ ((Nat.floor_lt hpos).mpr hmore) hcontent ?_ (offset_lt_next hafter) ?_ ?_⟩
      · refine Nat.lt_of_succ_le (Nat.le_floor ?_)
        rw [Nat.cast_succ]
        exact add_le_add (Nat.floor_le hnonneg) hone
      · rw [Page.nextOffset]
        dsimp only
        rw [map_some, bind_some, min_eq_left hmore.le, add_sub_cancel, if_pos hmore]
      · rw [startLineOf_next hpos]
      · rw [startLineOf_next hpos]
        exact hmore
    · refine ⟨none, .last _ hfloor ?_ ?_⟩
      · dsimp only
        rw [hcontent, min_eq_right (not_lt.mp hmore), Nat.floor_natCast, take_length]
      · dsimp only
        rw [map_some, bind_some, min_eq_right (not_lt.mp hmore), add_sub_cancel,
          if_neg (lt_irrefl _)]

theorem shows_cut {t : HeadTruncation} {firstLineBytes : ℕ} {k b : ℕ}
    (hfirst : t.firstLineExceedsLimit = false) (htruncated : t.truncated = true)
    (houtput : t.outputLines = k) (hpos : 0 < k) (hle : b ≤ lines.length)
    (hk : k < ((lines.take b).drop ⌊startLineOf offset⌋₊).length)
    (hcontent : t.content = join (((lines.take b).drop ⌊startLineOf offset⌋₊).take k)) :
    ∃ follow, Shows lines offset ⌊startLineOf offset⌋₊
      (.ok (showSelected ⟨lines.length, t, firstLineBytes⟩ (startLineOf offset) limit)) follow := by
  have hnonneg := startLineOf_nonneg offset
  have hpage : showSelected ⟨lines.length, t, firstLineBytes⟩ (startLineOf offset) limit =
              { content := t.content
                notice := some (.truncated t.truncatedBy (startLineOf offset + 1)
                  (startLineOf offset + 1 + t.outputLines - 1) lines.length
                  (startLineOf offset + 1 + t.outputLines - 1 + 1))
                lineCount := t.outputLines
                truncation := t } := by
    rw [showSelected]
    dsimp only
    rw [if_neg (by rw [hfirst]; exact Bool.false_ne_true), if_pos htruncated]
  rw [length_drop, length_take] at hk
  have hnext : startLineOf offset + 1 + (t.outputLines : ℚ) - 1 + 1 =
      startLineOf offset + k + 1 := by
    rw [houtput]
    ring
  have hfloor : ⌊startLineOf offset + (k : ℚ)⌋₊ = ⌊startLineOf offset⌋₊ + k :=
    Nat.floor_add_natCast hnonneg k
  have hend : 0 ≤ startLineOf offset + (k : ℚ) := add_nonneg hnonneg (Nat.cast_nonneg k)
  have hafter : startLineOf offset < startLineOf offset + (k : ℚ) :=
    lt_add_of_pos_right _ (Nat.cast_pos.mpr hpos)
  rw [hpage]
  refine ⟨some (startLineOf offset + k + 1, ⌊startLineOf offset⌋₊ + k),
    .more _ _ _ (Nat.lt_add_of_pos_right hpos) ?_ ?_ ?_ (offset_lt_next hafter) ?_ ?_⟩
  · omega
  · dsimp only
    rw [hcontent, take_drop, take_take, min_eq_left (by omega)]
  · exact congrArg some hnext
  · rw [startLineOf_next hend, hfloor]
  · rw [startLineOf_next hend]
    refine (Nat.floor_lt hend).mp ?_
    omega

theorem exists_long_line {a b : ℕ} (hlines : ∀ line ∈ lines, '\n' ∉ line)
    (hover : DEFAULT_MAX_BYTES <
      byteLength ((splitLinesForCounting (join ((lines.take b).drop a))).headD [])) :
    ∃ line, lines[a]? = some line ∧ DEFAULT_MAX_BYTES < byteLength line := by
  have hwindow : ∀ line ∈ (lines.take b).drop a, '\n' ∉ line := fun line hline =>
    hlines line (((drop_sublist _ _).trans (take_sublist _ _)).mem hline)
  rw [splitLinesForCounting_join hwindow, counted_take] at hover
  cases hcounted : ((lines.take b).drop a).take (counted ((lines.take b).drop a)).length with
  | nil =>
    rw [hcounted] at hover
    exact absurd hover (Nat.not_lt_zero _)
  | cons line rest =>
    rw [hcounted] at hover
    refine ⟨line, ?_, hover⟩
    have hfirst : (((lines.take b).drop a).take
        (counted ((lines.take b).drop a)).length)[0]? = some line := by
      rw [hcounted]
      rfl
    rw [getElem?_take] at hfirst
    split_ifs at hfirst
    rw [getElem?_drop, add_zero, getElem?_take] at hfirst
    split_ifs at hfirst
    exact hfirst

theorem readPage_shows (hlt : startLineOf offset < (text.splitOn '\n').length)
    (hlimit : ∀ l ∈ limit, 1 ≤ l) :
    ∃ follow, Shows (text.splitOn '\n') offset ⌊startLineOf offset⌋₊
      (readPage text offset limit) follow := by
  have hlines : ∀ line ∈ text.splitOn '\n', '\n' ∉ line := fun _ => not_mem_of_mem_splitOn
  have hcases : HeadCases DEFAULT_MAX_LINES DEFAULT_MAX_BYTES _
      (selectedTruncation text offset limit) := truncateHead_cases DEFAULT_MAX_LINES_pos _
  rw [selectedContent, slice_eq (startLineOf_nonneg offset) hlt hlimit] at hcases
  have hread := @readPage_eq _ _ limit hlt
  generalize text.splitOn '\n' = lines at *
  rcases hread with ⟨firstLineBytes, heq⟩ | ⟨hfirst, heq⟩
  · rw [heq]
    rcases hcases with ⟨-, htruncated, hfirst, hcontent, -⟩ | ⟨hfirst, hover, -⟩ |
      ⟨taken, rest, htruncated, hfirst, hcounted, hne, hcontent, houtput, hrest, -⟩
    · exact shows_all hlt hlimit hfirst htruncated hcontent
    · obtain ⟨line, hline, hlong⟩ := exists_long_line hlines hover
      have hcontent : (showSelected ⟨lines.length,
          selectedTruncation text offset limit, firstLineBytes⟩ (startLineOf offset)
          limit).content = [] := by
        rw [showSelected]
        dsimp only
        rw [if_pos hfirst]
      have hnext : (showSelected ⟨lines.length,
          selectedTruncation text offset limit, firstLineBytes⟩ (startLineOf offset)
          limit).nextOffset = none := by
        rw [showSelected]
        dsimp only
        rw [if_pos hfirst]
        rfl
      exact ⟨none, .long _ line hline hlong hcontent hnext⟩
    · have hwindow : ∀ line ∈ (lines.take
          (stopLine lines (startLineOf offset) limit)).drop ⌊startLineOf offset⌋₊,
          '\n' ∉ line := fun line hline =>
        hlines line (((drop_sublist _ _).trans (take_sublist _ _)).mem hline)
      rw [splitLinesForCounting_join hwindow] at hcounted
      have hle := counted_length_le ((lines.take
        (stopLine lines (startLineOf offset) limit)).drop ⌊startLineOf offset⌋₊)
      have hlength := congrArg length hcounted
      rw [length_append] at hlength
      refine shows_cut hfirst htruncated houtput (length_pos_iff.mpr hne)
        (stopLine_le _ (startLineOf offset) limit) ?_ ?_
      · rcases hrest with hrest | hover
        · have hpos := length_pos_iff.mpr hrest
          omega
        · have hfewer := counted_length_lt hwindow hover
          omega
      · rw [hcontent]
        refine congrArg join ?_
        have htaken : taken = (counted ((lines.take
            (stopLine lines (startLineOf offset) limit)).drop
              ⌊startLineOf offset⌋₊)).take taken.length := by
          rw [hcounted, take_left]
        rw [counted_take, take_take, min_eq_left (by omega)] at htaken
        exact htaken
  · rw [heq]
    rcases hcases with ⟨-, -, hnot, -, -⟩ | ⟨-, hover, -⟩ | ⟨-, -, -, hnot, -, -, -, -, -, -⟩
    · rw [hnot] at hfirst
      cases hfirst
    · obtain ⟨line, hline, hlong⟩ := exists_long_line hlines hover
      exact ⟨none, .longAt line hline hlong⟩
    · rw [hnot] at hfirst
      cases hfirst

/-! ### All pages -/

/-- Reads that show lines from `a` on, group after group, and stop at the last line or at one that
is too long, or when there are no more reads. -/
inductive Covers (lines : List (List Char)) : Option ℚ → ℕ → List Read → Prop
  | stop (offset : Option ℚ) (a : ℕ) (hmore : a < lines.length) : Covers lines offset a []
  | ends {offset : Option ℚ} {a : ℕ} {read : Read} (hoffset : read.offset = offset)
      (hshows : Shows lines offset a read.result none) : Covers lines offset a [read]
  | continues {offset : Option ℚ} {a b : ℕ} {next : ℚ} {read : Read} {reads : List Read}
      (hoffset : read.offset = offset) (hshows : Shows lines offset a read.result (some (next, b)))
      (hrest : Covers lines (some next) b reads) : Covers lines offset a (read :: reads)

/-- The limit that a page's truncation names is exceeded. -/
def Read.NamesLimit (read : Read) : Prop :=
  ∀ page, read.result = .ok page → page.truncation.NamesLimit

/-- What a read selects exceeds the byte limit by the newline at its end alone. -/
def Read.NewlineOver (text : List Char) (read : Read) : Prop :=
  Output.NewlineOver DEFAULT_MAX_LINES DEFAULT_MAX_BYTES
    (selectedContent text read.offset read.limit)

theorem readPage_namesLimit (hlt : startLineOf offset < (text.splitOn '\n').length) :
    (Read.mk offset limit (readPage text offset limit)).NamesLimit ↔
      ¬(Read.mk offset limit (readPage text offset limit)).NewlineOver text := by
  have hnames : (selectedTruncation text offset limit).NamesLimit ↔
      ¬NewlineOver DEFAULT_MAX_LINES DEFAULT_MAX_BYTES (selectedContent text offset limit) :=
    truncateHead_namesLimit DEFAULT_MAX_LINES_pos _
  rcases @readPage_eq _ _ limit hlt with ⟨firstLineBytes, heq⟩ | ⟨hfirst, heq⟩
  · constructor
    · intro h
      have hpage := h _ heq
      rw [readPage_truncation heq hlt] at hpage
      exact hnames.mp hpage
    · intro h page hpage
      rw [readPage_truncation hpage hlt]
      exact hnames.mpr h
  · refine iff_of_true ?_ ?_
    · intro page hpage
      rw [heq] at hpage
      cases hpage
    · intro hover
      have hcases : HeadCases DEFAULT_MAX_LINES DEFAULT_MAX_BYTES _
          (selectedTruncation text offset limit) := truncateHead_cases DEFAULT_MAX_LINES_pos _
      rcases hcases with ⟨-, -, hnot, -, -⟩ | ⟨-, hlong, -⟩ | ⟨-, -, -, hnot, -, -, -, -, -, -⟩
      · rw [hnot] at hfirst
        cases hfirst
      · exact absurd hover.join_le (not_le.mpr (hlong.trans_le (headD_le_join _)))
      · rw [hnot] at hfirst
        cases hfirst

theorem readPages_run (text : List Char) (limits : List (Option ℚ))
    (hlimits : ∀ limit ∈ limits, ∀ l ∈ limit, 1 ≤ l) (offset : Option ℚ)
    (hlt : startLineOf offset < (text.splitOn '\n').length) :
    Covers (text.splitOn '\n') offset ⌊startLineOf offset⌋₊ (readPages text offset limits) ∧
      ∀ read ∈ readPages text offset limits, read.NamesLimit ↔ ¬read.NewlineOver text := by
  induction limits generalizing offset with
  | nil =>
    refine ⟨.stop _ _ (floor_lt_length hlt (startLineOf_nonneg offset)), ?_⟩
    intro read hread
    cases hread
  | cons limit limits ih =>
    have hone := @readPage_namesLimit _ _ limit hlt
    obtain ⟨follow, hshows⟩ := readPage_shows hlt (hlimits limit mem_cons_self)
    have hrest : ∀ l ∈ limits, ∀ m ∈ l, 1 ≤ m := fun l hl =>
      hlimits l (mem_cons_of_mem _ hl)
    -- a read that is the last one
    have hends : Covers (text.splitOn '\n') offset ⌊startLineOf offset⌋₊
          [⟨offset, limit, readPage text offset limit⟩] →
        Covers (text.splitOn '\n') offset ⌊startLineOf offset⌋₊
            [⟨offset, limit, readPage text offset limit⟩] ∧
          ∀ read ∈ [Read.mk offset limit (readPage text offset limit)],
            read.NamesLimit ↔ ¬read.NewlineOver text := by
      intro hcovers
      refine ⟨hcovers, fun read hread => ?_⟩
      rw [mem_singleton] at hread
      rw [hread]
      exact hone
    rw [readPages_cons]
    have hshown := hshows
    obtain ⟨result, hresult⟩ : ∃ result, readPage text offset limit = result := ⟨_, rfl⟩
    rw [hresult] at hshows hshown hone hends ⊢
    cases hshows with
    | last page hstart hcontent hnotice =>
      have hnext : page.nextOffset = none := by
        rw [Page.nextOffset, hnotice]
      dsimp only
      rw [hnext]
      exact hends (.ends rfl hshown)
    | more page next b hstart hmore hcontent hnext hafter hline hwithin =>
      dsimp only
      rw [hnext]
      obtain ⟨hcovers, hnames⟩ := ih hrest (some next) hwithin
      rw [hline] at hcovers
      refine ⟨.continues rfl hshown hcovers, fun read hread => ?_⟩
      rcases mem_cons.mp hread with rfl | hread
      · exact hone
      · exact hnames read hread
    | long page line hline hover hcontent hnext =>
      dsimp only
      rw [hnext]
      exact hends (.ends rfl hshown)
    | longAt line hline hover => exact hends (.ends rfl hshown)

theorem zero_lt_length (text : List Char) : (0 : ℚ) < (text.splitOn '\n').length :=
  Nat.cast_pos.mpr (length_pos_iff.mpr (splitOn_ne_nil _ _))

theorem selectedContent_le (text : List Char) (offset limit : Option ℚ) :
    byteLength (selectedContent text offset limit) ≤ byteLength text := by
  rw [selectedContent, slice]
  have hjoin : join (text.splitOn '\n') = text := intercalate_splitOn '\n'
  generalize text.splitOn '\n' = lines at *
  subst hjoin
  generalize ((limit.map fun limit => min (startLineOf offset + limit) (lines.length : ℚ)).map
    (sliceIndex lines.length)).getD lines.length = b
  generalize sliceIndex lines.length (startLineOf offset) = a
  have htake := byteLength_join_le (lines.take b) (lines.drop b)
  have hdrop := byteLength_join_append ((lines.take b).take a) ((lines.take b).drop a)
  rw [take_append_drop] at htake hdrop
  exact hdrop.trans htake

theorem not_newlineOver (hfits : byteLength text ≤ DEFAULT_MAX_BYTES) (read : Read) :
    ¬read.NewlineOver text := fun h =>
  absurd h.over (not_lt.mpr ((selectedContent_le text _ _).trans hfits))

theorem byteLength_replicate (c : Char) (n : ℕ) :
    byteLength (replicate n c) = n * c.utf8Size := by
  induction n with
  | zero => exact (zero_mul _).symm
  | succ n ih => rw [replicate_succ, byteLength_cons, ih, Nat.succ_mul, add_comm]

/-- A line as long as the byte limit, ended by a newline. -/
def fullLine : List Char :=
  replicate DEFAULT_MAX_BYTES 'a' ++ ['\n']

theorem fullLine_newlineOver : NewlineOver DEFAULT_MAX_LINES DEFAULT_MAX_BYTES fullLine := by
  have hline : '\n' ∉ replicate DEFAULT_MAX_BYTES 'a' := fun h =>
    absurd (eq_of_mem_replicate h) (by decide)
  have hone : ('a' : Char).utf8Size = 1 := by decide
  refine ⟨?_, ?_, getLast?_concat⟩
  · rw [fullLine, splitLinesForCounting_ended, splitOn_eq_singleton hline]
    exact DEFAULT_MAX_LINES_pos
  · rw [fullLine, byteLength_append, byteLength_replicate, byteLength_cons, byteLength_newline,
      byteLength_nil, hone, mul_one]

end

end KnightCode.Output
