import KnightCode.Output.Accumulator

/-!
# Snapshots of output that is still arriving

Whatever the chunks, the end of the text that is kept reaches back over twice the bytes that are
shown, so that what a snapshot cuts off is not shown of the whole text either. The first line of
the kept end is left out also when nothing but a newline follows it; then the whole text would show
the end of that line. And a newline that ends the text is shown when the rest of it fits.
-/

namespace KnightCode.Output

open List Option

/-! ### Lines of a text that goes on -/

theorem lastLine_append (text text' : List Char) :
    OutputAccumulator.lastLine (text ++ text') =
      if '\n' ∈ text' then OutputAccumulator.lastLine text'
      else OutputAccumulator.lastLine text ++ text' := by
  rw [OutputAccumulator.lastLine, OutputAccumulator.lastLine, OutputAccumulator.lastLine,
    rtakeWhile, rtakeWhile, rtakeWhile, reverse_append, takeWhile_append]
  by_cases hmem : '\n' ∈ text'
  · have hlength : (text'.reverse.takeWhile (· ≠ '\n')).length ≠ text'.reverse.length := by
      intro heq
      have hself := ( takeWhile_prefix _).eq_of_length heq
      have hall := takeWhile_eq_self_iff.mp hself '\n' (mem_reverse.mpr hmem)
      exact of_decide_eq_true hall rfl
    rw [if_pos hmem, if_neg hlength]
  · have hself : text'.reverse.takeWhile (· ≠ '\n') = text'.reverse := by
      refine takeWhile_eq_self_iff.mpr fun c hc => decide_eq_true ?_
      rintro rfl
      exact hmem (mem_reverse.mp hc)
    rw [if_neg hmem, hself, if_pos rfl, reverse_append, reverse_reverse]

theorem length_splitOn (text : List Char) : (text.splitOn '\n').length = text.count '\n' + 1 := by
  induction text with
  | nil => rfl
  | cons c text ih =>
    rw [splitOn_cons_eq_if_modifyHead, count_cons]
    split_ifs with hc
    · rw [length_cons, ih]
    · rw [length_modifyHead, ih]

theorem lastLine_eq_nil {text : List Char} :
    OutputAccumulator.lastLine text = [] ↔ text = [] ∨ text.getLast? = some '\n' := by
  induction text using reverseRecOn with
  | nil => exact iff_of_true rfl (.inl rfl)
  | append_singleton text c _ =>
    rw [OutputAccumulator.lastLine, getLast?_concat, rtakeWhile_concat]
    by_cases hc : c = '\n'
    · subst hc
      simp
    · simp [hc]

theorem length_splitLinesForCounting (text : List Char) :
    (splitLinesForCounting text).length =
      text.count '\n' + if OutputAccumulator.lastLine text ≠ [] then 1 else 0 := by
  rcases text_cases text with rfl | ⟨before, rfl⟩ | ⟨hne, hlast⟩
  · rfl
  · have hnil : OutputAccumulator.lastLine (before ++ ['\n']) = [] :=
      lastLine_eq_nil.mpr (.inr getLast?_concat)
    rw [splitLinesForCounting_ended, length_splitOn, if_neg (not_not.mpr hnil),
      count_append, count_singleton_self]
  · have hopen : OutputAccumulator.lastLine text ≠ [] := fun hnil =>
      (lastLine_eq_nil.mp hnil).elim hne hlast
    rw [splitLinesForCounting_open hne hlast, length_splitOn, if_pos hopen]

/-! ### The text that is kept -/

namespace OutputAccumulator

variable {δ : Type*} (D : TextDecoder δ)

/-- What is kept is an end of the text, which starts with a line or is longer than twice what is
shown. -/
structure Keeps (a : OutputAccumulator δ) (dropped : List Char) : Prop where
  whole : dropped = [] → a.tailStartsAtLineBoundary = true
  part : ∀ c, dropped.getLast? = some c →
    (a.tailStartsAtLineBoundary = true ↔ c = '\n') ∧
      a.maxBytes * 2 < c.utf8Size + byteLength a.tailText

structure Holds (a : OutputAccumulator δ) (text : List Char) : Prop where
  rolling : a.maxRollingBytes = max (a.maxBytes * 2) 1
  tail : ∃ dropped, text = dropped ++ a.tailText ∧ a.Keeps dropped
  tailBytes_eq : a.tailBytes = byteLength a.tailText
  totalDecodedBytes_eq : a.totalDecodedBytes = byteLength text
  completedLines_eq : a.completedLines = text.count '\n'
  currentLineBytes_eq : a.currentLineBytes = byteLength (lastLine text)
  hasOpenLine_eq : a.hasOpenLine = decide (lastLine text ≠ [])
  totalLines_eq : a.totalLines = (splitLinesForCounting text).length

theorem new_holds (options : OutputAccumulatorOptions) :
    (OutputAccumulator.new D options).Holds [] where
  rolling := rfl
  tail := ⟨[], rfl, fun _ => rfl, fun c hlast => by cases hlast⟩
  tailBytes_eq := rfl
  totalDecodedBytes_eq := rfl
  completedLines_eq := rfl
  currentLineBytes_eq := rfl
  hasOpenLine_eq := rfl
  totalLines_eq := rfl

variable {D} {a : OutputAccumulator δ} {dropped text : List Char}

theorem trimTail_keeps (hrolling : a.maxRollingBytes = max (a.maxBytes * 2) 1)
    (hlong : a.maxRollingBytes < byteLength a.tailText) :
    ∃ cut, a.tailText = cut ++ a.trimTail.tailText ∧ ∀ dropped, a.trimTail.Keeps (dropped ++ cut)
      ∧ a.trimTail.tailBytes = byteLength a.trimTail.tailText := by
  have hpos : 0 < byteLength a.tailText - a.maxRollingBytes := by omega
  obtain ⟨before, c, htake, hlt⟩ := takeBytes_concat hpos (Nat.sub_le _ _)
  have happend := takeBytes_append_dropBytes (byteLength a.tailText - a.maxRollingBytes) a.tailText
  have hlast : (takeBytes (byteLength a.tailText - a.maxRollingBytes) a.tailText).getLast? =
      some c := by
    rw [htake, getLast?_concat]
  have hbytes := congrArg byteLength happend
  rw [htake, byteLength_append, byteLength_append, byteLength_cons, byteLength_nil] at hbytes
  have htrim : a.trimTail = { a with
      tailStartsAtLineBoundary := c = '\n'
      tailText := dropBytes (byteLength a.tailText - a.maxRollingBytes) a.tailText
      tailBytes := byteLength
        (dropBytes (byteLength a.tailText - a.maxRollingBytes) a.tailText) } := by
    rw [trimTail]
    dsimp only
    rw [if_neg (not_le.mpr hlong), hlast]
    rfl
  rw [htrim]
  refine ⟨_, happend.symm, fun dropped => ⟨⟨fun hnil => ?_, fun d hd => ?_⟩, rfl⟩⟩
  · rw [htake] at hnil
    exact absurd hnil (by simp)
  · rw [htake, ← append_assoc, getLast?_concat, Option.some.injEq] at hd
    subst hd
    refine ⟨decide_eq_true_iff, ?_⟩
    dsimp only
    omega

theorem trimTail_eq (a : OutputAccumulator δ) : ∃ boundary tailText tailBytes,
    a.trimTail =
      { a with
        tailStartsAtLineBoundary := boundary, tailText := tailText, tailBytes := tailBytes } := by
  rw [trimTail]
  dsimp only
  split_ifs
  · exact ⟨_, _, _, rfl⟩
  · exact ⟨_, _, _, rfl⟩

theorem keep_eq (a : OutputAccumulator δ) (text : List Char) : ∃ boundary tailText tailBytes,
    a.keep text =
      { a with
        totalDecodedBytes := a.totalDecodedBytes + byteLength text
        tailStartsAtLineBoundary := boundary, tailText := tailText, tailBytes := tailBytes } := by
  rw [keep]
  dsimp only
  split_ifs
  · exact trimTail_eq _
  · exact ⟨_, _, _, rfl⟩

theorem keep_keeps (hrolling : a.maxRollingBytes = max (a.maxBytes * 2) 1)
    (hbytes : a.tailBytes = byteLength a.tailText) (hkeeps : a.Keeps dropped) (text : List Char) :
    ∃ dropped', dropped ++ a.tailText ++ text = dropped' ++ (a.keep text).tailText ∧
      (a.keep text).Keeps dropped' ∧
      (a.keep text).tailBytes = byteLength (a.keep text).tailText := by
  rw [keep]
  dsimp only
  have hlength : a.tailBytes + byteLength text = byteLength (a.tailText ++ text) := by
    rw [byteLength_append, hbytes]
  split_ifs with hlong
  · obtain ⟨cut, happend, hcut⟩ := trimTail_keeps (a := { a with
      totalDecodedBytes := a.totalDecodedBytes + byteLength text
      tailText := a.tailText ++ text
      tailBytes := a.tailBytes + byteLength text }) hrolling (by
        dsimp only
        omega)
    refine ⟨dropped ++ cut, ?_, hcut dropped⟩
    rw [append_assoc, append_assoc, ← happend]
  · refine ⟨dropped, append_assoc _ _ _, ⟨hkeeps.whole, fun c hc => ?_⟩, hlength⟩
    obtain ⟨hboundary, hlt⟩ := hkeeps.part c hc
    refine ⟨hboundary, hlt.trans_le ?_⟩
    dsimp only
    rw [byteLength_append]
    omega

theorem countLines_eq (a : OutputAccumulator δ) (text : List Char) :
    a.countLines text =
      { a with
        completedLines := a.completedLines + text.count '\n'
        currentLineBytes :=
          if '\n' ∈ text then byteLength (lastLine text)
          else a.currentLineBytes + byteLength text
        hasOpenLine := if '\n' ∈ text then decide (lastLine text ≠ []) else true
        totalLines := a.completedLines + text.count '\n' +
          if (if '\n' ∈ text then decide (lastLine text ≠ []) else true) then 1 else 0 } := by
  rw [countLines]
  dsimp only
  by_cases hmem : '\n' ∈ text
  · have hcount : text.count '\n' ≠ 0 := (count_pos_iff.mpr hmem).ne'
    rw [if_neg hcount, if_pos hmem, if_pos hmem]
  · have hcount : text.count '\n' = 0 := count_eq_zero.mpr hmem
    rw [if_pos hcount, if_neg hmem, if_neg hmem, hcount]
    rfl

theorem Holds.appendDecodedText (ha : a.Holds text) (text' : List Char) :
    (a.appendDecodedText text').Holds (text ++ text') := by
  rw [OutputAccumulator.appendDecodedText]
  split_ifs with hnil
  · rw [hnil, append_nil]
    exact ha
  · obtain ⟨dropped, htext, hkeeps⟩ := ha.tail
    obtain ⟨dropped', happend, hkeeps', hbytes'⟩ :=
      keep_keeps ha.rolling ha.tailBytes_eq hkeeps text'
    obtain ⟨boundary, tailText, tailBytes, hkeep⟩ := keep_eq a text'
    have hopen : (if '\n' ∈ text' then decide (lastLine text' ≠ []) else true) =
        decide (lastLine (text ++ text') ≠ []) := by
      rw [lastLine_append]
      split_ifs
      · rfl
      · exact (decide_eq_true (append_ne_nil_of_right_ne_nil _ hnil)).symm
    rw [← htext] at happend
    rw [hkeep] at happend hkeeps' hbytes' ⊢
    rw [countLines_eq]
    exact {
      rolling := ha.rolling
      tail := ⟨dropped', happend, hkeeps'.whole, hkeeps'.part⟩
      tailBytes_eq := hbytes'
      totalDecodedBytes_eq := by
        dsimp only
        rw [byteLength_append, ← ha.totalDecodedBytes_eq]
      completedLines_eq := by
        dsimp only
        rw [count_append, ← ha.completedLines_eq]
      currentLineBytes_eq := by
        dsimp only
        rw [lastLine_append, ha.currentLineBytes_eq]
        split_ifs
        · rfl
        · rw [byteLength_append]
      hasOpenLine_eq := hopen
      totalLines_eq := by
        dsimp only
        rw [hopen, length_splitLinesForCounting, count_append, ha.completedLines_eq]
        simp only [decide_eq_true_eq] }

/-! ### Every run -/

theorem Holds.set (ha : a.Holds text) (decoder : δ) (finished : Bool) :
    { a with decoder := decoder, finished := finished }.Holds text := by
  obtain ⟨dropped, htext, hkeeps⟩ := ha.tail
  exact { ha with tail := ⟨dropped, htext, hkeeps.whole, hkeeps.part⟩ }

theorem appendDecodedText_kept (a : OutputAccumulator δ) (text : List Char) :
    (a.appendDecodedText text).decoder = a.decoder ∧
      (a.appendDecodedText text).finished = a.finished ∧
      (a.appendDecodedText text).maxLines = a.maxLines ∧
      (a.appendDecodedText text).maxBytes = a.maxBytes := by
  rw [OutputAccumulator.appendDecodedText]
  split_ifs
  · exact ⟨rfl, rfl, rfl, rfl⟩
  · obtain ⟨boundary, tailText, tailBytes, hkeep⟩ := keep_eq a text
    rw [countLines_eq, hkeep]
    exact ⟨rfl, rfl, rfl, rfl⟩

end OutputAccumulator

section

variable {δ : Type*} (D : TextDecoder δ)
variable {a : OutputAccumulator δ}

open OutputAccumulator

theorem Call.run_finished (hfinished : a.finished = true) (call : Call) : call.run D a = a := by
  cases call with
  | append data =>
    rw [Call.run, OutputAccumulator.append, if_pos hfinished]
  | finish =>
    rw [Call.run, OutputAccumulator.finish, if_pos hfinished]

theorem Call.run_append (hfinished : a.finished = false) (data : List UInt8) :
    Call.run D a (.append data) =
      { a with decoder := (D.decode a.decoder data).2 }.appendDecodedText
        (D.decode a.decoder data).1 := by
  rw [Call.run, OutputAccumulator.append, hfinished, if_neg Bool.false_ne_true]

theorem Call.run_finish (hfinished : a.finished = false) :
    Call.run D a .finish = { a with finished := true }.appendDecodedText (D.flush a.decoder) := by
  rw [Call.run, OutputAccumulator.finish, hfinished, if_neg Bool.false_ne_true]

theorem run_finished (hfinished : a.finished = true) (calls : List Call) :
    calls.foldl (Call.run D) a = a := by
  induction calls with
  | nil => rfl
  | cons call calls ih => rw [foldl_cons, Call.run_finished D hfinished, ih]

theorem run_holds {text : List Char} (ha : a.Holds text) (hfinished : a.finished = false)
    (calls : List Call) :
    (calls.foldl (Call.run D) a).Holds (text ++ decodedFrom D a.decoder calls) := by
  induction calls generalizing a text with
  | nil =>
    rw [decodedFrom, append_nil]
    exact ha
  | cons call calls ih =>
    rw [foldl_cons]
    cases call with
    | append data =>
      have hnext := (ha.set (D.decode a.decoder data).2 a.finished).appendDecodedText
        (D.decode a.decoder data).1
      obtain ⟨hdecoder, hkept, -, -⟩ := appendDecodedText_kept
        { a with decoder := (D.decode a.decoder data).2 } (D.decode a.decoder data).1
      rw [Call.run_append D hfinished, decodedFrom, ← append_assoc]
      have hrun := ih hnext (hkept.trans hfinished)
      rw [hdecoder] at hrun
      exact hrun
    | finish =>
      have hnext := (ha.set a.decoder true).appendDecodedText (D.flush a.decoder)
      obtain ⟨-, hkept, -, -⟩ := appendDecodedText_kept
        { a with finished := true } (D.flush a.decoder)
      rw [Call.run_finish D hfinished, decodedFrom, run_finished D hkept]
      exact hnext

theorem runCalls_holds (options : OutputAccumulatorOptions) (calls : List Call) :
    (runCalls D options calls).Holds (decodedText D calls) :=
  run_holds D (new_holds D options) rfl calls

theorem Call.run_limits (a : OutputAccumulator δ) (call : Call) :
    (call.run D a).maxLines = a.maxLines ∧ (call.run D a).maxBytes = a.maxBytes := by
  cases hfinished : a.finished with
  | true =>
    rw [Call.run_finished D hfinished]
    exact ⟨rfl, rfl⟩
  | false =>
    cases call with
    | append data =>
      rw [Call.run_append D hfinished]
      exact (appendDecodedText_kept _ _).2.2
    | finish =>
      rw [Call.run_finish D hfinished]
      exact (appendDecodedText_kept _ _).2.2

theorem runCalls_limits (options : OutputAccumulatorOptions) (calls : List Call) :
    (runCalls D options calls).maxLines = options.maxLines.getD DEFAULT_MAX_LINES ∧
      (runCalls D options calls).maxBytes = options.maxBytes.getD DEFAULT_MAX_BYTES := by
  induction calls using reverseRecOn with
  | nil => exact ⟨rfl, rfl⟩
  | append_singleton calls call ih =>
    have hstep := Call.run_limits D (runCalls D options calls) call
    rw [runCalls, foldl_concat]
    exact ⟨hstep.1.trans ih.1, hstep.2.trans ih.2⟩

end

/-! ### Snapshots -/

theorem truncateTail_totals (maxLines maxBytes : ℕ) (content : List Char) :
    (truncateTail maxLines maxBytes content).totalLines = (splitLinesForCounting content).length ∧
      (truncateTail maxLines maxBytes content).totalBytes = byteLength content ∧
      (truncateTail maxLines maxBytes content).truncated =
        decide (¬fits maxLines maxBytes content) := by
  rw [truncateTail]
  dsimp only
  by_cases hfits : fits maxLines maxBytes content
  · rw [if_pos hfits]
    exact ⟨rfl, rfl, (decide_eq_false (not_not.mpr hfits)).symm⟩
  · rw [if_neg hfits]
    exact ⟨rfl, rfl, (decide_eq_true hfits).symm⟩

namespace OutputAccumulator

variable {δ : Type*} {a : OutputAccumulator δ} {text : List Char}

theorem snapshot_totals (ha : a.Holds text) :
    a.snapshot.totalLines = (truncateTail a.maxLines a.maxBytes text).totalLines ∧
      a.snapshot.totalBytes = (truncateTail a.maxLines a.maxBytes text).totalBytes ∧
      a.snapshot.truncated = (truncateTail a.maxLines a.maxBytes text).truncated := by
  obtain ⟨hlines, hbytes, htruncated⟩ := truncateTail_totals a.maxLines a.maxBytes text
  rw [hlines, hbytes, htruncated]
  refine ⟨ha.totalLines_eq, ha.totalDecodedBytes_eq, decide_eq_decide.mpr ?_⟩
  rw [ha.totalLines_eq, ha.totalDecodedBytes_eq, fits]
  omega

/-- A snapshot leaves out the only line that can be shown, or shows the newline that ends the
text: what is kept starts within a line, which is followed by nothing, or by text that fits and
ends with a newline. -/
def LosesEnd (a : OutputAccumulator δ) : Prop :=
  a.tailStartsAtLineBoundary = false ∧
    ∃ cut kept, a.tailText = cut ++ '\n' :: kept ∧ '\n' ∉ cut ∧
      (kept = [] ∧ (∃ c, cut.getLast? = some c ∧ c.utf8Size ≤ a.maxBytes) ∨
        fits a.maxLines a.maxBytes kept ∧ kept.getLast? = some '\n')

theorem getSnapshotText_boundary (h : a.tailStartsAtLineBoundary = true) :
    a.getSnapshotText = a.tailText := by
  rw [getSnapshotText, if_pos h]

theorem getSnapshotText_line (h : '\n' ∉ a.tailText) : a.getSnapshotText = a.tailText := by
  rw [getSnapshotText, if_neg h, ite_self]

theorem getSnapshotText_cut (h : a.tailStartsAtLineBoundary = false) {cut kept : List Char}
    (htail : a.tailText = cut ++ '\n' :: kept) (hcut : '\n' ∉ cut) : a.getSnapshotText = kept := by
  have hmem : '\n' ∈ a.tailText := by
    rw [htail]
    exact mem_append_right _ mem_cons_self
  have hdrop : (cut ++ '\n' :: kept).dropWhile (· ≠ '\n') = '\n' :: kept := by
    rw [dropWhile_append_of_pos]
    · rfl
    · intro c hc
      refine decide_eq_true ?_
      rintro rfl
      exact hcut hc
  rw [getSnapshotText, h, if_neg Bool.false_ne_true, if_pos hmem, htail, hdrop, tail_cons]

theorem byteLength_of_getLast? {before : List Char} {c : Char} (hlast : before.getLast? = some c) :
    c.utf8Size ≤ byteLength before := by
  obtain ⟨before, rfl⟩ := getLast?_eq_some_iff.mp hlast
  rw [byteLength_append, byteLength_cons, byteLength_nil]
  omega

theorem append_newline_inj {line line' rest rest' : List Char} (hline : '\n' ∉ line)
    (hline' : '\n' ∉ line') (heq : line ++ '\n' :: rest = line' ++ '\n' :: rest') :
    line = line' ∧ rest = rest' := by
  induction line generalizing line' with
  | nil =>
    cases line' with
    | nil => exact ⟨rfl, (cons.inj heq).2⟩
    | cons c line' => exact absurd ((cons.inj heq).1 ▸ mem_cons_self) hline'
  | cons c line ih =>
    cases line' with
    | nil => exact absurd ((cons.inj heq).1 ▸ mem_cons_self) hline
    | cons c' line' =>
      obtain ⟨rfl, htail⟩ := cons.inj heq
      obtain ⟨rfl, rfl⟩ := ih (fun h => hline (mem_cons_of_mem _ h))
        (fun h => hline' (mem_cons_of_mem _ h)) htail
      exact ⟨rfl, rfl⟩

theorem content_boundary (ha : a.Holds text) (hbytes : 0 < a.maxBytes)
    (hboundary : a.tailStartsAtLineBoundary = true) :
    a.snapshot.content = (truncateTail a.maxLines a.maxBytes text).content := by
  obtain ⟨dropped, rfl, hkeeps⟩ := ha.tail
  have hsnapshot : a.snapshot.content =
      (truncateTail a.maxLines a.maxBytes a.tailText).content := by
    rw [snapshot, getSnapshotText_boundary hboundary]
  rw [hsnapshot]
  rcases eq_nil_or_concat' dropped with rfl | ⟨before, c, rfl⟩
  · rfl
  · obtain ⟨hc, hlong⟩ := hkeeps.part c getLast?_concat
    obtain rfl := hc.mp hboundary
    rw [byteLength_newline] at hlong
    have hne : a.tailText ≠ [] := by
      intro hnil
      rw [hnil, byteLength_nil] at hlong
      omega
    obtain ⟨lines, line, -, -, hline⟩ := exists_splitOn before
    have hsplit := hline [] not_mem_nil
    rw [append_nil, append_nil] at hsplit
    have hjoin := byteLength_le_join a.tailText
    have hfits : ¬fits a.maxLines a.maxBytes a.tailText := not_fits (by omega)
    rw [append_assoc, singleton_append, content_newline hne _ hsplit _, if_neg hfits]
    · rw [byteLength_append, byteLength_cons]
      omega
    · omega

/-- What is kept goes on with the last line of what was dropped. -/
theorem Keeps.within {dropped : List Char} (h : a.Keeps dropped)
    (hboundary : a.tailStartsAtLineBoundary = false) : ∃ c lines line, c ≠ '\n' ∧
      dropped.getLast? = some c ∧ line.getLast? = some c ∧
      a.maxBytes * 2 < c.utf8Size + byteLength a.tailText ∧
      ∀ rest, '\n' ∉ rest → (dropped ++ rest).splitOn '\n' = lines ++ [line ++ rest] := by
  cases hlast : dropped.getLast? with
  | none =>
    rw [h.whole (getLast?_eq_none_iff.mp hlast)] at hboundary
    cases hboundary
  | some c =>
    obtain ⟨hc, hlong⟩ := h.part c hlast
    have hnewline : c ≠ '\n' := fun heq => by
      rw [hc.mpr heq] at hboundary
      cases hboundary
    obtain ⟨lines, line, -, hend, hsplit⟩ := exists_splitOn dropped
    exact ⟨c, lines, line, hnewline, rfl, hend c hnewline hlast, hlong, hsplit⟩

theorem content_line (ha : a.Holds text) (hlines : 0 < a.maxLines)
    (hboundary : a.tailStartsAtLineBoundary = false) (hline : '\n' ∉ a.tailText) :
    a.snapshot.content = (truncateTail a.maxLines a.maxBytes text).content := by
  obtain ⟨dropped, rfl, hkeeps⟩ := ha.tail
  have hsnapshot : a.snapshot.content =
      (truncateTail a.maxLines a.maxBytes a.tailText).content := by
    rw [snapshot, getSnapshotText_line hline]
  rw [hsnapshot]
  obtain ⟨c, lines, line, hnewline, hlast, hlineEnd, hlong, hsplit⟩ := hkeeps.within hboundary
  have hlineBytes := byteLength_of_getLast? hlineEnd
  have hdropped := byteLength_of_getLast? hlast
  have hwhole :
      splitLinesForCounting (dropped ++ a.tailText) = lines ++ [line ++ a.tailText] := by
    rw [splitLinesForCounting_open, hsplit _ hline]
    · intro hnil
      rw [(append_eq_nil_iff.mp hnil).1] at hlast
      cases hlast
    · rw [getLast?_append]
      cases htail : a.tailText.getLast? with
      | none =>
        rw [none_or, hlast, Ne, Option.some.injEq]
        exact hnewline
      | some d =>
        rw [some_or, Ne, Option.some.injEq]
        rintro rfl
        exact hline (mem_of_getLast? htail)
  rw [content_lastLine hlines _ hwhole _, truncateStringToBytesFromEnd_append _ hlineEnd]
  · by_cases hfits : byteLength a.tailText ≤ a.maxBytes
    · rw [truncateStringToBytesFromEnd, if_pos hfits, content_of_fits]
      refine ⟨?_, hfits⟩
      rcases eq_or_ne a.tailText [] with hnil | hne
      · rw [hnil]
        exact Nat.zero_le _
      · rw [splitLinesForCounting_line hne hline]
        exact hlines
    · have hne : a.tailText ≠ [] := fun hnil => by
        rw [hnil] at hfits
        exact hfits (Nat.zero_le _)
      have hsingle : splitLinesForCounting a.tailText = [] ++ [a.tailText] :=
        splitLinesForCounting_line hne hline
      exact content_lastLine hlines (not_le.mp hfits) hsingle (not_le.mp hfits)
  · omega
  · rw [byteLength_append]
    omega
  · rw [byteLength_append]
    omega

theorem content_cut (ha : a.Holds text) (hlines : 0 < a.maxLines) (hbytes : 0 < a.maxBytes)
    (hboundary : a.tailStartsAtLineBoundary = false) {cut kept : List Char}
    (htail : a.tailText = cut ++ '\n' :: kept) (hcut : '\n' ∉ cut) :
    (truncateTail a.maxLines a.maxBytes text).content =
      if kept = [] then truncateStringToBytesFromEnd cut a.maxBytes
      else if fits a.maxLines a.maxBytes kept then join (splitLinesForCounting kept)
      else (truncateTail a.maxLines a.maxBytes kept).content := by
  obtain ⟨dropped, rfl, hkeeps⟩ := ha.tail
  obtain ⟨c, lines, line, hnewline, hlast, hlineEnd, hlong, hsplit⟩ := hkeeps.within hboundary
  have hlineBytes := byteLength_of_getLast? hlineEnd
  have hdropped := byteLength_of_getLast? hlast
  have hjoin := byteLength_le_join kept
  rw [htail, byteLength_append, byteLength_cons, byteLength_newline] at hlong
  rw [htail, ← append_assoc]
  have hwhole : a.maxBytes < byteLength (dropped ++ cut ++ '\n' :: kept) := by
    rw [byteLength_append, byteLength_append, byteLength_cons]
    omega
  split_ifs with hnil hfits
  · subst hnil
    rw [byteLength_nil] at hlong
    have hended : splitLinesForCounting (dropped ++ cut ++ ['\n']) = lines ++ [line ++ cut] := by
      rw [splitLinesForCounting_ended, hsplit _ hcut]
    rw [content_lastLine hlines hwhole hended _, truncateStringToBytesFromEnd_append _ hlineEnd]
    · omega
    · rw [byteLength_append]
      omega
  · rw [content_newline hnil hwhole (hsplit _ hcut) _, if_pos hfits]
    rw [byteLength_append]
    omega
  · rw [content_newline hnil hwhole (hsplit _ hcut) _, if_neg hfits]
    rw [byteLength_append]
    omega

theorem join_ne {kept : List Char} (hlast : kept.getLast? = some '\n') :
    kept ≠ join (splitLinesForCounting kept) := by
  obtain ⟨before, rfl⟩ := getLast?_eq_some_iff.mp hlast
  rw [join_ended]
  intro heq
  have hlength := congrArg length heq
  rw [length_append, length_singleton] at hlength
  omega

theorem snapshot_content (ha : a.Holds text) (hlines : 0 < a.maxLines) (hbytes : 0 < a.maxBytes) :
    a.snapshot.content = (truncateTail a.maxLines a.maxBytes text).content ↔ ¬a.LosesEnd := by
  cases hboundary : a.tailStartsAtLineBoundary with
  | true =>
    refine iff_of_true (content_boundary ha hbytes hboundary) fun hloses => ?_
    have hfalse := hloses.1
    rw [hboundary] at hfalse
    cases hfalse
  | false =>
    by_cases hmem : '\n' ∈ a.tailText
    · obtain ⟨cut, kept, htail, hcut⟩ := eq_append_cons_of_mem hmem
      have hkept : a.snapshot.content = (truncateTail a.maxLines a.maxBytes kept).content := by
        rw [snapshot, getSnapshotText_cut hboundary htail hcut]
      have hloses : a.LosesEnd ↔
          kept = [] ∧ (∃ c, cut.getLast? = some c ∧ c.utf8Size ≤ a.maxBytes) ∨
            fits a.maxLines a.maxBytes kept ∧ kept.getLast? = some '\n' := by
        constructor
        · rintro ⟨-, cut', kept', htail', hcut', hends⟩
          rw [htail] at htail'
          obtain ⟨rfl, rfl⟩ := append_newline_inj hcut hcut' htail'
          exact hends
        · exact fun hends => ⟨hboundary, cut, kept, htail, hcut, hends⟩
      rw [hkept, content_cut ha hlines hbytes hboundary htail hcut, hloses]
      split_ifs with hnil hfits
      · subst hnil
        have hempty : (truncateTail a.maxLines a.maxBytes []).content = [] :=
          content_of_fits ⟨Nat.zero_le _, Nat.zero_le _⟩
        rw [hempty, ← truncateStringToBytesFromEnd_ne_nil]
        constructor
        · rintro heq (⟨-, hne⟩ | ⟨-, hlast⟩)
          · exact hne heq.symm
          · cases hlast
        · intro hnot
          by_contra hne
          exact hnot (.inl ⟨rfl, fun heq => hne heq.symm⟩)
      · rw [content_of_fits hfits]
        constructor
        · rintro heq (⟨h, -⟩ | ⟨-, hlast⟩)
          · exact hnil h
          · exact join_ne hlast heq
        · intro hnot
          exact (join_open fun hlast => hnot (.inr ⟨hfits, hlast⟩)).symm
      · refine iff_of_true rfl ?_
        rintro (⟨h, -⟩ | ⟨h, -⟩)
        · exact hnil h
        · exact hfits h
    · refine iff_of_true (content_line ha hlines hboundary hmem) ?_
      rintro ⟨-, cut, kept, htail, -, -⟩
      rw [htail] at hmem
      exact hmem (mem_append_right _ mem_cons_self)

end OutputAccumulator

/-- The same content and totals are shown. -/
def TruncationResult.Agrees (shown whole : TruncationResult) : Prop :=
  shown.content = whole.content ∧ shown.totalLines = whole.totalLines ∧
    shown.totalBytes = whole.totalBytes ∧ shown.truncated = whole.truncated

/-- After every run a snapshot shows the end of the text decoded so far, and its totals, exactly
when it does not lose the end. -/
theorem snapshot_truncates {δ : Type*} (D : TextDecoder δ) (options : OutputAccumulatorOptions)
    (hlines : 0 < options.maxLines.getD DEFAULT_MAX_LINES)
    (hbytes : 0 < options.maxBytes.getD DEFAULT_MAX_BYTES) (calls : List Call) :
    (runCalls D options calls).snapshot.Agrees
        (truncateTail (options.maxLines.getD DEFAULT_MAX_LINES)
          (options.maxBytes.getD DEFAULT_MAX_BYTES) (decodedText D calls)) ↔
      ¬(runCalls D options calls).LosesEnd := by
  have hholds := runCalls_holds D options calls
  obtain ⟨hmaxLines, hmaxBytes⟩ := runCalls_limits D options calls
  rw [← hmaxLines] at hlines ⊢
  rw [← hmaxBytes] at hbytes ⊢
  rw [TruncationResult.Agrees, OutputAccumulator.snapshot_content hholds hlines hbytes]
  exact and_iff_left (OutputAccumulator.snapshot_totals hholds)

/-! ### A long line -/

/-- The last three letters of a line and its newline are kept, and nothing is shown. -/
theorem snapshot_longLine :
    (runCalls singleBytes ⟨some 10, some 2⟩
        [.append [97, 97, 97, 97, 97, 97, 97, 97, 10]]).snapshot.content = [] ∧
      ¬(runCalls singleBytes ⟨some 10, some 2⟩
        [.append [97, 97, 97, 97, 97, 97, 97, 97, 10]]).snapshot.Agrees
          (truncateTail 10 2 (decodedText singleBytes
            [.append [97, 97, 97, 97, 97, 97, 97, 97, 10]])) := by
  refine ⟨by decide, fun hagrees => ?_⟩
  have hcontent := hagrees.1
  revert hcontent
  decide

/-- The line before the last is trimmed, and the last is shown. -/
theorem snapshot_truncates_trimmed :
    (runCalls singleBytes ⟨some 10, some 2⟩ [.append [97, 97, 97, 97, 97, 97, 97, 97, 10],
      .append [98]]).tailText = ['a', 'a', 'a', '\n', 'b'] ∧
    (runCalls singleBytes ⟨some 10, some 2⟩ [.append [97, 97, 97, 97, 97, 97, 97, 97, 10],
      .append [98]]).snapshot.content = ['b'] := by
  refine ⟨by decide, ((snapshot_truncates singleBytes ⟨some 10, some 2⟩ (by decide) (by decide)
    [.append [97, 97, 97, 97, 97, 97, 97, 97, 10], .append [98]]).mpr ?_).1.trans (by decide)⟩
  rintro ⟨-, cut, kept, htail, hcut, hends⟩
  have hline : '\n' ∉ ['a', 'a', 'a'] := by decide
  obtain ⟨rfl, rfl⟩ := OutputAccumulator.append_newline_inj hline hcut htail
  obtain ⟨hnil, -⟩ | ⟨-, hlast⟩ := hends
  · cases hnil
  · exact absurd hlast (by decide)

end KnightCode.Output
