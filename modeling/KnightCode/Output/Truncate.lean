import Mathlib.Data.List.TakeWhile
import Mathlib.Tactic

/-!
# Truncating the output of a tool

Output longer than a number of lines or of bytes is shown from its end: as many whole lines as fit,
and of a last line that does not fit on its own as many characters. A text is the list of its
characters; its bytes are those of UTF-8, so a place within a character is moved on to the next one.
The lines put together again are the text, without the newline it ends with.
-/

namespace KnightCode.Output

/-! ### Bytes -/

def byteLength (text : List Char) : ℕ :=
  (text.map Char.utf8Size).sum

/-- The characters from a byte on, or from the next character's first byte. -/
def dropBytes : ℕ → List Char → List Char
  | 0, text => text
  | _ + 1, [] => []
  | bytes + 1, c :: text => dropBytes (bytes + 1 - c.utf8Size) text

/-- The characters before those. -/
def takeBytes : ℕ → List Char → List Char
  | 0, _ => []
  | _ + 1, [] => []
  | bytes + 1, c :: text => c :: takeBytes (bytes + 1 - c.utf8Size) text

def truncateStringToBytesFromEnd (str : List Char) (maxBytes : ℕ) : List Char :=
  if byteLength str ≤ maxBytes then str else dropBytes (byteLength str - maxBytes) str

/-! ### Lines -/

/-- The lines of a text, none after the newline it ends with. -/
def splitLinesForCounting (content : List Char) : List (List Char) :=
  if content = [] then []
  else
    let lines := content.splitOn '\n'
    if content.getLast? = some '\n' then lines.dropLast else lines

def join (lines : List (List Char)) : List Char :=
  ['\n'].intercalate lines

/-! ### Truncation -/

def DEFAULT_MAX_LINES : ℕ := 2000

def DEFAULT_MAX_BYTES : ℕ := 50 * 1024

inductive TruncatedBy
  | lines
  | bytes
  deriving DecidableEq

structure TruncationResult where
  content : List Char
  truncated : Bool
  truncatedBy : Option TruncatedBy
  totalLines : ℕ
  totalBytes : ℕ
  outputLines : ℕ
  outputBytes : ℕ
  lastLinePartial : Bool
  maxLines : ℕ
  maxBytes : ℕ

/-- What the loop over the lines has collected. -/
structure Collected where
  outputLines : List (List Char)
  outputBytes : ℕ
  truncatedBy : TruncatedBy
  lastLinePartial : Bool

section

variable (maxLines maxBytes : ℕ)

/-- The bytes a line takes, with the newline behind it. -/
def Collected.lineBytes (s : Collected) (line : List Char) : ℕ :=
  byteLength line + if s.outputLines = [] then 0 else 1

def Collected.push (s : Collected) (line : List Char) : Collected :=
  { s with
    outputLines := line :: s.outputLines
    outputBytes := s.outputBytes + s.lineBytes line }

/-- The loop, over the lines from the last one on. -/
def collect (s : Collected) : List (List Char) → Collected
  | [] => s
  | line :: lines =>
    if s.outputLines.length < maxLines then
      if maxBytes < s.outputBytes + s.lineBytes line then
        if s.outputLines = [] then
          let truncatedLine := truncateStringToBytesFromEnd line maxBytes
          ⟨[truncatedLine], byteLength truncatedLine, .bytes, true⟩
        else { s with truncatedBy := .bytes }
      else collect (s.push line) lines
    else s

def Collected.start : Collected :=
  ⟨[], 0, .lines, false⟩

/-- No truncation is needed. -/
def fits (content : List Char) : Prop :=
  (splitLinesForCounting content).length ≤ maxLines ∧ byteLength content ≤ maxBytes

instance (content : List Char) : Decidable (fits maxLines maxBytes content) :=
  inferInstanceAs (Decidable (_ ∧ _))

def truncateTail (content : List Char) : TruncationResult :=
  let totalBytes := byteLength content
  let lines := splitLinesForCounting content
  let totalLines := lines.length
  if fits maxLines maxBytes content then
    ⟨content, false, none, totalLines, totalBytes, totalLines, totalBytes, false, maxLines,
      maxBytes⟩
  else
    let s := collect maxLines maxBytes .start lines.reverse
    let truncatedBy :=
      if maxLines ≤ s.outputLines.length ∧ s.outputBytes ≤ maxBytes then .lines else s.truncatedBy
    let outputContent := join s.outputLines
    ⟨outputContent, true, some truncatedBy, totalLines, totalBytes, s.outputLines.length,
      byteLength outputContent, s.lastLinePartial, maxLines, maxBytes⟩

end

/-! ### Facts about bytes -/

@[simp] theorem byteLength_nil : byteLength [] = 0 := rfl

@[simp] theorem byteLength_cons (c : Char) (text : List Char) :
    byteLength (c :: text) = c.utf8Size + byteLength text := rfl

@[simp] theorem byteLength_append (text text' : List Char) :
    byteLength (text ++ text') = byteLength text + byteLength text' := by
  rw [byteLength, List.map_append, List.sum_append]
  rfl

theorem byteLength_newline : ('\n' : Char).utf8Size = 1 := by decide

theorem takeBytes_append_dropBytes (bytes : ℕ) (text : List Char) :
    takeBytes bytes text ++ dropBytes bytes text = text := by
  induction text generalizing bytes with
  | nil => cases bytes <;> rfl
  | cons c text ih =>
    cases bytes with
    | zero => rfl
    | succ bytes => exact congrArg (List.cons c) (ih _)

open List Option
variable {text : List Char} {bytes : ℕ}

/-! ### Lines of a text -/

theorem splitLinesForCounting_nil : splitLinesForCounting [] = [] := rfl

theorem splitLinesForCounting_newline (text text' : List Char) :
    splitLinesForCounting (text ++ '\n' :: text') =
      text.splitOn '\n' ++ splitLinesForCounting text' := by
  have hne : text ++ '\n' :: text' ≠ [] := by simp
  rw [splitLinesForCounting, if_neg hne, splitOn_append_cons_self]
  by_cases hnil : text' = []
  · subst hnil
    have hlast : (text ++ ['\n']).getLast? = some '\n' := getLast?_concat
    dsimp only
    rw [if_pos hlast, splitOn_nil, dropLast_concat, splitLinesForCounting_nil, append_nil]
  · have hlast : (text ++ '\n' :: text').getLast? = text'.getLast? := by
      rw [getLast?_append_of_ne_nil _ (cons_ne_nil _ _), getLast?_cons,
        getLast?_eq_some_getLast hnil, getD_some]
    dsimp only
    rw [splitLinesForCounting, if_neg hnil, hlast]
    split_ifs with hnewline
    · exact dropLast_append_of_ne_nil (splitOn_ne_nil _ _)
    · rfl

theorem splitLinesForCounting_ended (text : List Char) :
    splitLinesForCounting (text ++ ['\n']) = text.splitOn '\n' := by
  rw [splitLinesForCounting_newline, splitLinesForCounting_nil, append_nil]

theorem splitLinesForCounting_open (hne : text ≠ []) (hlast : text.getLast? ≠ some '\n') :
    splitLinesForCounting text = text.splitOn '\n' := by
  rw [splitLinesForCounting, if_neg hne]
  exact if_neg hlast

variable {line : List Char}

theorem splitLinesForCounting_line (hne : line ≠ []) (hline : '\n' ∉ line) :
    splitLinesForCounting line = [line] := by
  have hlast : line.getLast? ≠ some '\n' := fun hlast => hline (mem_of_getLast? hlast)
  rw [splitLinesForCounting_open hne hlast, splitOn_eq_singleton hline]

theorem text_cases (text : List Char) :
    text = [] ∨ (∃ before, text = before ++ ['\n']) ∨ text ≠ [] ∧ text.getLast? ≠ some '\n' := by
  by_cases hlast : text.getLast? = some '\n'
  · exact .inr (.inl (getLast?_eq_some_iff.mp hlast))
  · rcases eq_or_ne text [] with rfl | hne
    · exact .inl rfl
    · exact .inr (.inr ⟨hne, hlast⟩)

theorem splitLinesForCounting_eq_nil : splitLinesForCounting text = [] ↔ text = [] := by
  constructor
  · intro heq
    rcases text_cases text with hnil | ⟨before, rfl⟩ | ⟨hne, hlast⟩
    · exact hnil
    · rw [splitLinesForCounting_ended] at heq
      exact absurd heq (splitOn_ne_nil _ _)
    · rw [splitLinesForCounting_open hne hlast] at heq
      exact absurd heq (splitOn_ne_nil _ _)
  · rintro rfl
    rfl

theorem join_ended (before : List Char) :
    join (splitLinesForCounting (before ++ ['\n'])) = before := by
  rw [splitLinesForCounting_ended, join, intercalate_splitOn]

theorem join_open (hlast : text.getLast? ≠ some '\n') :
    join (splitLinesForCounting text) = text := by
  rcases eq_or_ne text [] with rfl | hne
  · rfl
  · rw [splitLinesForCounting_open hne hlast, join, intercalate_splitOn]

theorem exists_lastLine (text : List Char) :
    ∃ line, '\n' ∉ line ∧ (text = line ∨ ∃ before, text = before ++ '\n' :: line) := by
  induction text using reverseRecOn with
  | nil => exact ⟨[], not_mem_nil, .inl rfl⟩
  | append_singleton text c ih =>
    obtain ⟨line, hline, htext⟩ := ih
    by_cases hc : c = '\n'
    · exact ⟨[], not_mem_nil, .inr ⟨text, by rw [hc]⟩⟩
    · refine ⟨line ++ [c], ?_, ?_⟩
      · rw [mem_append, mem_singleton]
        rintro (hmem | heq)
        · exact hline hmem
        · exact hc heq.symm
      · rcases htext with rfl | ⟨before, rfl⟩
        · exact .inl rfl
        · exact .inr ⟨before, by rw [append_assoc, cons_append]⟩

theorem exists_splitOn (text : List Char) : ∃ lines line, '\n' ∉ line ∧
    (∀ c, c ≠ '\n' → text.getLast? = some c → line.getLast? = some c) ∧
    ∀ text', '\n' ∉ text' → (text ++ text').splitOn '\n' = lines ++ [line ++ text'] := by
  obtain ⟨line, hline, rfl | ⟨before, rfl⟩⟩ := exists_lastLine text
  · refine ⟨[], _, hline, fun c _ hlast => hlast, fun text' htext' => ?_⟩
    exact splitOn_eq_singleton (not_mem_append hline htext')
  · refine ⟨before.splitOn '\n', line, hline, fun c hc hlast => ?_, fun text' htext' => ?_⟩
    · rw [getLast?_append_of_ne_nil _ (cons_ne_nil _ _), getLast?_cons] at hlast
      cases heq : line.getLast? with
      | none =>
        rw [heq] at hlast
        exact absurd (some.inj hlast).symm hc
      | some d =>
        rw [heq] at hlast
        exact hlast
    · have hnot : '\n' ∉ line ++ text' := not_mem_append hline htext'
      rw [append_assoc, cons_append, splitOn_append_cons_self, splitOn_eq_singleton hnot]

/-! ### The loop over the lines -/

variable {lines : List (List Char)}

theorem join_cons_of_ne_nil (line : List Char) (hne : lines ≠ []) :
    join (line :: lines) = line ++ '\n' :: join lines := by
  rw [join, intercalate_cons_of_ne_nil hne, append_assoc]
  rfl

theorem byteLength_join_cons (line : List Char) (lines : List (List Char)) :
    byteLength (join (line :: lines)) =
      byteLength (join lines) + (byteLength line + if lines = [] then 0 else 1) := by
  split_ifs with hnil
  · subst hnil
    rw [join, intercalate_singleton, join, intercalate_nil, byteLength_nil]
    omega
  · rw [join_cons_of_ne_nil line hnil, byteLength_append, byteLength_cons, byteLength_newline]
    omega

theorem byteLength_join_append (lines lines' : List (List Char)) :
    byteLength (join lines') ≤ byteLength (join (lines ++ lines')) := by
  induction lines with
  | nil => rfl
  | cons line lines ih =>
    rw [cons_append, byteLength_join_cons]
    omega

section

variable (maxLines maxBytes : ℕ)
variable {lines : List (List Char)}

structure Collected.Within (s : Collected) : Prop where
  outputBytes_eq : s.outputBytes = byteLength (join s.outputLines)
  lines_le : s.outputLines.length ≤ maxLines
  bytes_le : s.outputBytes ≤ maxBytes

/-- These lines, the last one first, are all taken. -/
def Collected.TakesAll (s : Collected) (lines : List (List Char)) : Prop :=
  s.outputLines.length + lines.length ≤ maxLines ∧
    byteLength (join (lines.reverse ++ s.outputLines)) ≤ maxBytes

variable {maxLines maxBytes} {s : Collected} {line : List Char}

theorem Collected.push_bytes (hs : s.Within maxLines maxBytes) :
    (s.push line).outputBytes = byteLength (join (s.push line).outputLines) := by
  rw [Collected.push, byteLength_join_cons, hs.outputBytes_eq]
  rfl

theorem Collected.push_within (hs : s.Within maxLines maxBytes)
    (hlines : s.outputLines.length < maxLines)
    (hbytes : ¬maxBytes < s.outputBytes + s.lineBytes line) :
    (s.push line).Within maxLines maxBytes where
  outputBytes_eq := Collected.push_bytes hs
  lines_le := hlines
  bytes_le := not_lt.mp hbytes

theorem Collected.takesAll_cons :
    s.TakesAll maxLines maxBytes (line :: lines) ↔
      (s.push line).TakesAll maxLines maxBytes lines := by
  have hlength : (s.push line).outputLines.length = s.outputLines.length + 1 := rfl
  have hjoin : (line :: lines).reverse ++ s.outputLines =
      lines.reverse ++ (s.push line).outputLines := by
    rw [reverse_cons, append_assoc]
    rfl
  rw [Collected.TakesAll, Collected.TakesAll, hjoin, hlength, length_cons]
  constructor
  · rintro ⟨hlines, hbytes⟩
    exact ⟨by omega, hbytes⟩
  · rintro ⟨hlines, hbytes⟩
    exact ⟨by omega, hbytes⟩

theorem Collected.TakesAll.head (hs : s.Within maxLines maxBytes)
    (htakes : s.TakesAll maxLines maxBytes (line :: lines)) :
    s.outputLines.length < maxLines ∧ ¬maxBytes < s.outputBytes + s.lineBytes line := by
  have hbytes := (Collected.takesAll_cons.mp htakes).2
  have hhead := byteLength_join_append lines.reverse (s.push line).outputLines
  have hpush : s.outputBytes + s.lineBytes line = _ := @Collected.push_bytes _ _ _ line hs
  have hlines := htakes.1
  rw [length_cons] at hlines
  exact ⟨by omega, by omega⟩

theorem collect_takesAll (hs : s.Within maxLines maxBytes)
    (htakes : s.TakesAll maxLines maxBytes lines) (before : List (List Char)) :
    ∃ s' : Collected, s'.Within maxLines maxBytes ∧
      s'.outputLines = lines.reverse ++ s.outputLines ∧
      collect maxLines maxBytes s (lines ++ before) = collect maxLines maxBytes s' before := by
  induction lines generalizing s with
  | nil => exact ⟨s, hs, rfl, rfl⟩
  | cons line lines ih =>
    obtain ⟨hlines, hbytes⟩ := htakes.head hs
    obtain ⟨s', hs', heq, hcollect⟩ :=
      ih (Collected.push_within hs hlines hbytes) (Collected.takesAll_cons.mp htakes)
    refine ⟨s', hs', ?_, ?_⟩
    · rw [heq, reverse_cons, append_assoc]
      rfl
    · rw [cons_append, collect, if_pos hlines, if_neg hbytes, hcollect]

theorem collect_ends (hs : s.Within maxLines maxBytes)
    (htakes : ¬s.TakesAll maxLines maxBytes lines) (before : List (List Char)) :
    collect maxLines maxBytes s (lines ++ before) = collect maxLines maxBytes s lines := by
  induction lines generalizing s with
  | nil =>
    refine absurd ⟨hs.lines_le, ?_⟩ htakes
    exact hs.outputBytes_eq.symm.trans_le hs.bytes_le
  | cons line lines ih =>
    rw [cons_append, collect, collect]
    split_ifs with hlines hbytes hnil
    · rfl
    · rfl
    · exact ih (Collected.push_within hs hlines hbytes) fun h =>
        htakes (Collected.takesAll_cons.mpr h)
    · rfl

theorem collect_full (hs : s.outputLines ≠ [])
    (hbytes : maxBytes < s.outputBytes + s.lineBytes line) (lines : List (List Char)) :
    (collect maxLines maxBytes s (line :: lines)).outputLines = s.outputLines := by
  rw [collect, if_pos hbytes, if_neg hs]
  split_ifs
  · rfl
  · rfl

end

/-! ### The end of a line -/

theorem dropBytes_zero (text : List Char) : dropBytes 0 text = text := by
  cases text <;> rfl

theorem truncateStringToBytesFromEnd_eq (str : List Char) (maxBytes : ℕ) :
    truncateStringToBytesFromEnd str maxBytes = dropBytes (byteLength str - maxBytes) str := by
  rw [truncateStringToBytesFromEnd]
  split_ifs with hle
  · rw [Nat.sub_eq_zero_of_le hle, dropBytes_zero]
  · rfl

theorem dropBytes_cons (hpos : 0 < bytes) (c : Char) (text : List Char) :
    dropBytes bytes (c :: text) = dropBytes (bytes - c.utf8Size) text := by
  obtain ⟨bytes, rfl⟩ := Nat.exists_eq_succ_of_ne_zero hpos.ne'
  rfl

theorem dropBytes_append (bytes : ℕ) (text text' : List Char) :
    dropBytes (byteLength text + bytes) (text ++ text') = dropBytes bytes text' := by
  induction text with
  | nil => rw [byteLength_nil, zero_add, nil_append]
  | cons c text ih =>
    have hpos := c.utf8Size_pos
    have hsub : byteLength (c :: text) + bytes - c.utf8Size = byteLength text + bytes := by
      rw [byteLength_cons]
      omega
    rw [cons_append, dropBytes_cons (by rw [byteLength_cons]; omega), hsub, ih]

theorem dropBytes_append_of_le (hle : bytes ≤ byteLength text) (text' : List Char) :
    dropBytes bytes (text ++ text') = dropBytes bytes text ++ text' := by
  induction text generalizing bytes with
  | nil =>
    rw [byteLength_nil, Nat.le_zero] at hle
    rw [hle, nil_append, dropBytes_zero, dropBytes_zero, nil_append]
  | cons c text ih =>
    rcases Nat.eq_zero_or_pos bytes with rfl | hpos
    · rw [dropBytes_zero, dropBytes_zero]
    · rw [byteLength_cons] at hle
      rw [cons_append, dropBytes_cons hpos, dropBytes_cons hpos, ih (by omega)]

theorem truncateStringToBytesFromEnd_append {maxBytes : ℕ} {c : Char} {str : List Char}
    (hlt : maxBytes < byteLength str + c.utf8Size) {before : List Char}
    (hlast : before.getLast? = some c) :
    truncateStringToBytesFromEnd (before ++ str) maxBytes =
      truncateStringToBytesFromEnd str maxBytes := by
  obtain ⟨before, rfl⟩ := getLast?_eq_some_iff.mp hlast
  have hbytes : byteLength (before ++ [c] ++ str) - maxBytes =
      byteLength before + (byteLength str + c.utf8Size - maxBytes) := by
    rw [byteLength_append, byteLength_append, byteLength_cons, byteLength_nil]
    omega
  have hstr : byteLength str + c.utf8Size - maxBytes - c.utf8Size = byteLength str - maxBytes := by
    omega
  rw [truncateStringToBytesFromEnd_eq, truncateStringToBytesFromEnd_eq, hbytes, append_assoc,
    dropBytes_append, singleton_append, dropBytes_cons (by omega), hstr]

theorem truncateStringToBytesFromEnd_ne_nil {str : List Char} {maxBytes : ℕ} :
    truncateStringToBytesFromEnd str maxBytes ≠ [] ↔
      ∃ c, str.getLast? = some c ∧ c.utf8Size ≤ maxBytes := by
  rw [truncateStringToBytesFromEnd_eq]
  induction str using reverseRecOn with
  | nil =>
    rw [byteLength_nil, Nat.zero_sub, dropBytes_zero]
    constructor
    · intro hne
      exact absurd rfl hne
    · rintro ⟨c, hlast, -⟩
      cases hlast
  | append_singleton str c _ =>
    have hbytes : byteLength (str ++ [c]) = byteLength str + c.utf8Size := by
      rw [byteLength_append, byteLength_cons, byteLength_nil, add_zero]
    constructor
    · intro hne
      refine ⟨c, getLast?_concat, not_lt.mp fun hlt => hne ?_⟩
      have hsub : byteLength (str ++ [c]) - maxBytes =
          byteLength str + (c.utf8Size - maxBytes) := by
        omega
      have hzero : c.utf8Size - maxBytes - c.utf8Size = 0 := by omega
      rw [hsub, dropBytes_append, dropBytes_cons (by omega), hzero, dropBytes_zero]
    · rintro ⟨d, hlast, hle⟩
      rw [getLast?_concat, some.injEq] at hlast
      subst hlast
      rw [dropBytes_append_of_le (by omega)]
      exact append_ne_nil_of_right_ne_nil _ (cons_ne_nil _ _)

theorem takeBytes_concat (hpos : 0 < bytes) (hle : bytes ≤ byteLength text) :
    ∃ before c, takeBytes bytes text = before ++ [c] ∧ byteLength before < bytes := by
  induction text generalizing bytes with
  | nil =>
    rw [byteLength_nil] at hle
    omega
  | cons c text ih =>
    obtain ⟨bytes, rfl⟩ := Nat.exists_eq_succ_of_ne_zero hpos.ne'
    rw [byteLength_cons] at hle
    rw [takeBytes]
    rcases Nat.eq_zero_or_pos (bytes + 1 - c.utf8Size) with hzero | hrest
    · refine ⟨[], c, ?_, hpos⟩
      rw [hzero]
      cases text <;> rfl
    · obtain ⟨before, d, heq, hlt⟩ := ih hrest (by omega)
      refine ⟨c :: before, d, by rw [heq, cons_append], ?_⟩
      rw [byteLength_cons]
      omega

/-! ### What is shown -/

section

variable {maxLines maxBytes : ℕ} {text : List Char}

theorem content_of_fits (hfits : fits maxLines maxBytes text) :
    (truncateTail maxLines maxBytes text).content = text := by
  rw [truncateTail]
  dsimp only
  rw [if_pos hfits]

theorem content_of_not_fits (hfits : ¬fits maxLines maxBytes text) :
    (truncateTail maxLines maxBytes text).content =
      join (collect maxLines maxBytes .start (splitLinesForCounting text).reverse).outputLines := by
  rw [truncateTail]
  dsimp only
  rw [if_neg hfits]

theorem start_within (maxLines maxBytes : ℕ) : Collected.start.Within maxLines maxBytes where
  outputBytes_eq := rfl
  lines_le := Nat.zero_le _
  bytes_le := Nat.zero_le _

theorem not_fits (hbytes : maxBytes < byteLength text) : ¬fits maxLines maxBytes text :=
  fun hfits => (hfits.2.trans_lt hbytes).false

theorem content_lastLine (hpos : 0 < maxLines) (hbytes : maxBytes < byteLength text)
    (hlines : splitLinesForCounting text = lines ++ [line]) (hline : maxBytes < byteLength line) :
    (truncateTail maxLines maxBytes text).content = truncateStringToBytesFromEnd line maxBytes := by
  have hstart : Collected.start.outputLines = [] := rfl
  have hlength : Collected.start.outputLines.length < maxLines := hpos
  have hlt : maxBytes < Collected.start.outputBytes + Collected.start.lineBytes line := by
    rw [Collected.lineBytes, if_pos hstart]
    exact hline.trans_le (Nat.le_add_left _ _)
  rw [content_of_not_fits (not_fits hbytes), hlines, reverse_append, reverse_singleton,
    singleton_append, collect, if_pos hlength, if_pos hlt, if_pos hstart]
  exact intercalate_singleton

theorem byteLength_le_join (text : List Char) :
    byteLength text ≤ byteLength (join (splitLinesForCounting text)) + 1 := by
  rcases text_cases text with rfl | ⟨before, rfl⟩ | ⟨-, hlast⟩
  · exact Nat.zero_le _
  · rw [join_ended, byteLength_append, byteLength_cons, byteLength_newline, byteLength_nil]
  · rw [join_open hlast]
    exact Nat.le_succ _

theorem join_le_byteLength (text : List Char) :
    byteLength (join (splitLinesForCounting text)) ≤ byteLength text := by
  rcases text_cases text with rfl | ⟨before, rfl⟩ | ⟨-, hlast⟩
  · exact Nat.zero_le _
  · rw [join_ended, byteLength_append]
    exact Nat.le_add_right _ _
  · rw [join_open hlast]

theorem takesAll_of_fits (hfits : fits maxLines maxBytes text) :
    Collected.start.TakesAll maxLines maxBytes (splitLinesForCounting text).reverse := by
  refine ⟨?_, ?_⟩
  · rw [length_reverse]
    exact (zero_add _).trans_le hfits.1
  · rw [reverse_reverse]
    have happend : splitLinesForCounting text ++ Collected.start.outputLines =
        splitLinesForCounting text := append_nil _
    rw [happend]
    exact (join_le_byteLength text).trans hfits.2

theorem content_newline {before : List Char} (hne : text ≠ [])
    (hbytes : maxBytes < byteLength (before ++ '\n' :: text))
    (hlines : before.splitOn '\n' = lines ++ [line])
    (hline : maxBytes < byteLength (join (splitLinesForCounting text)) + (byteLength line + 1)) :
    (truncateTail maxLines maxBytes (before ++ '\n' :: text)).content =
      if fits maxLines maxBytes text then join (splitLinesForCounting text)
      else (truncateTail maxLines maxBytes text).content := by
  have hreverse : (splitLinesForCounting (before ++ '\n' :: text)).reverse =
      (splitLinesForCounting text).reverse ++ line :: lines.reverse := by
    rw [splitLinesForCounting_newline, hlines, reverse_append, reverse_append,
      reverse_singleton, singleton_append]
  rw [content_of_not_fits (not_fits hbytes), hreverse]
  by_cases htakes :
      Collected.start.TakesAll maxLines maxBytes (splitLinesForCounting text).reverse
  · -- every line of the part is taken, and the line before it is not
    have hwithin := start_within maxLines maxBytes
    have hstart : (splitLinesForCounting text).reverse.reverse ++ Collected.start.outputLines =
        splitLinesForCounting text := by
      rw [reverse_reverse]
      exact append_nil _
    obtain ⟨s, hs, heq, hcollect⟩ := collect_takesAll hwithin htakes (line :: lines.reverse)
    obtain ⟨s', -, heq', hcollect'⟩ := collect_takesAll hwithin htakes []
    rw [hstart] at heq heq'
    have hsne : s.outputLines ≠ [] := by
      rw [heq]
      exact fun hnil => hne (splitLinesForCounting_eq_nil.mp hnil)
    have hfull : maxBytes < s.outputBytes + s.lineBytes line := by
      rw [hs.outputBytes_eq, Collected.lineBytes, if_neg hsne, heq]
      exact hline
    rw [hcollect, collect_full hsne hfull, heq]
    split_ifs with hfits
    · rfl
    · rw [append_nil] at hcollect'
      rw [content_of_not_fits hfits, hcollect', collect, heq']
  · have hfits : ¬fits maxLines maxBytes text := fun hfits => htakes (takesAll_of_fits hfits)
    rw [if_neg hfits, content_of_not_fits hfits,
      collect_ends (start_within maxLines maxBytes) htakes]

end

end KnightCode.Output
