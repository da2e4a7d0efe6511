import KnightCode.Library.JsonParse
import KnightCode.Library.Utf8

/-!
# JSON text in lines and cut short

A printed value is well formed and stands on one line. An object whose text is cut short reads as
nothing, also when U+FFFD stands for the character the cut goes through. A scan that follows
strings and brackets tells: it is balanced behind every value that was read, and inside a bracket
or a string wherever an object's text is cut.
-/

namespace JsonText

open List Option
variable {c : UInt16} {t : Text} {depth : ℤ}

/-! ### Scanning -/

/-- Inside a string, behind a reverse solidus in it, or outside. -/
inductive Mode
  | outside
  | inside
  | escaped

structure Scan where
  mode : Mode
  depth : ℤ

def Scan.step (s : Scan) (c : UInt16) : Scan :=
  match s.mode with
  | .outside =>
    if c = 34 then { s with mode := .inside }
    else if c = 91 ∨ c = 123 then { s with depth := s.depth + 1 }
    else if c = 93 ∨ c = 125 then { s with depth := s.depth - 1 }
    else s
  | .inside =>
    if c = 34 then { s with mode := .outside }
    else if c = 92 then { s with mode := .escaped }
    else s
  | .escaped => { s with mode := .inside }

def scan (s : Scan) (t : Text) : Scan :=
  t.foldl Scan.step s

theorem scan_append (s : Scan) (t u : Text) : scan s (t ++ u) = scan (scan s t) u :=
  foldl_append

theorem scan_cons (s : Scan) (c : UInt16) (t : Text) : scan s (c :: t) = scan (s.step c) t := rfl

theorem step_plain (h : Plain c) (depth : ℤ) :
    (Scan.mk .outside depth).step c = ⟨.outside, depth⟩ := by
  obtain ⟨h34, h91, h93, h123, h125⟩ := h
  simp [Scan.step, h34, h91, h93, h123, h125]

theorem step_opening (h : c = 91 ∨ c = 123) (depth : ℤ) :
    (Scan.mk .outside depth).step c = ⟨.outside, depth + 1⟩ := by
  rcases h with rfl | rfl <;> rfl

theorem step_closing (h : c = 93 ∨ c = 125) (depth : ℤ) :
    (Scan.mk .outside (depth + 1)).step c = ⟨.outside, depth⟩ := by
  rcases h with rfl | rfl <;> simp [Scan.step]

theorem scan_plain (h : ∀ c ∈ t, Plain c) (depth : ℤ) :
    scan ⟨.outside, depth⟩ t = ⟨.outside, depth⟩ := by
  induction t with
  | nil => rfl
  | cons c t ih =>
    rw [scan_cons, step_plain (h c mem_cons_self), ih fun d hd => h d (mem_cons_of_mem c hd)]

/-- From `t` to `rest` a text was read that opens and closes the same brackets and strings. -/
def Balanced (t rest : Text) : Prop :=
  ∃ used, t = used ++ rest ∧ ∀ depth, scan ⟨.outside, depth⟩ used = ⟨.outside, depth⟩

namespace Balanced

theorem refl (t : Text) : Balanced t t :=
  ⟨[], rfl, fun _ => rfl⟩

theorem trans {t u w : Text} (h : Balanced t u) (h' : Balanced u w) : Balanced t w := by
  obtain ⟨used, rfl, hused⟩ := h
  obtain ⟨used', rfl, hused'⟩ := h'
  refine ⟨used ++ used', (append_assoc _ _ _).symm, fun depth => ?_⟩
  rw [scan_append, hused, hused']

theorem of_plain (used rest : Text) (h : ∀ c ∈ used, Plain c) : Balanced (used ++ rest) rest :=
  ⟨used, rfl, scan_plain h⟩

theorem plain {c : UInt16} {rest : Text} (h : Plain c) : Balanced (c :: rest) rest := by
  refine of_plain [c] rest ?_
  intro d hd
  rw [mem_singleton.mp hd]
  exact h

theorem bracket {opening closing : UInt16} {t rest : Text} (ho : opening = 91 ∨ opening = 123)
    (hc : closing = 93 ∨ closing = 125) (h : Balanced t (closing :: rest)) :
    Balanced (opening :: t) rest := by
  obtain ⟨used, rfl, hused⟩ := h
  refine ⟨opening :: (used ++ [closing]), by simp, fun depth => ?_⟩
  rw [scan_cons, step_opening ho, scan_append, hused, scan_cons, step_closing hc]
  rfl

end Balanced

theorem expect_some {rest : Text} (h : expect c t = some rest) : t = c :: rest := by
  cases t with
  | nil => cases h
  | cons d t =>
    rw [expect] at h
    split_ifs at h with hd
    rw [hd, Option.some.inj h]

theorem plain_of_space (h : isSpace c = true) : Plain c := by
  simp only [isSpace, Bool.or_eq_true, decide_eq_true_eq] at h
  rcases h with ((rfl | rfl) | rfl) | rfl <;> (unfold Plain; decide)

theorem balanced_skip (t : Text) : Balanced t (skip t) := by
  have hsplit := takeWhile_append_dropWhile (p := isSpace) (l := t)
  have hplain : ∀ c ∈ t.takeWhile isSpace, Plain c :=
    fun c hc => plain_of_space (mem_takeWhile_imp hc)
  have h := Balanced.of_plain _ (t.dropWhile isSpace) hplain
  rw [hsplit] at h
  exact h

def Reading.mode : Reading → Mode
  | .escaped => .escaped
  | _ => .inside

theorem ne_of_hexDigit (h : isHexDigit c = true) : c ≠ 34 ∧ c ≠ 92 := by
  constructor
  · rintro rfl
    cases h
  · rintro rfl
    cases h

theorem step_inside (h34 : c ≠ 34) (h92 : c ≠ 92) (depth : ℤ) :
    (Scan.mk .inside depth).step c = ⟨.inside, depth⟩ := by
  simp [Scan.step, h34, h92]

def Closes (m : Mode) (t rest : Text) : Prop :=
  ∃ used, t = used ++ rest ∧ ∀ depth, scan ⟨m, depth⟩ used = ⟨.outside, depth⟩

theorem Closes.cons {m m' : Mode} {c : UInt16} {t rest : Text} (h : Closes m' t rest)
    (hstep : ∀ depth, (Scan.mk m depth).step c = ⟨m', depth⟩) : Closes m (c :: t) rest := by
  obtain ⟨used, rfl, hused⟩ := h
  exact ⟨c :: used, rfl, fun depth => by rw [scan_cons, hstep, hused]⟩

theorem closes_readString {reading : Reading} {read : Text × Text}
    (h : readString reading t = some read) : Closes reading.mode t read.2 := by
  induction t generalizing reading read with
  | nil => cases reading <;> cases h
  | cons c t ih =>
    cases reading with
    | plain =>
      rw [readString] at h
      by_cases h34 : c = 34
      · rw [if_pos h34] at h
        rw [← Option.some.inj h, h34]
        exact ⟨[34], rfl, fun depth => rfl⟩
      rw [if_neg h34] at h
      by_cases h92 : c = 92
      · rw [if_pos h92] at h
        rw [h92]
        exact (ih h).cons fun depth => rfl
      rw [if_neg h92] at h
      split_ifs at h
      obtain ⟨read', hread, rfl⟩ := map_eq_some_iff.mp h
      have hrest : Closes .inside t read'.2 := ih hread
      exact hrest.cons (step_inside h34 h92)
    | escaped =>
      rw [readString] at h
      split_ifs at h
      · exact (ih h).cons fun depth => rfl
      · cases he : escapeUnit c with
        | none =>
          rw [he] at h
          cases h
        | some d =>
          rw [he] at h
          obtain ⟨read', hread, rfl⟩ := map_eq_some_iff.mp h
          have hrest : Closes .inside t read'.2 := ih hread
          exact hrest.cons fun depth => rfl
    | hex number value =>
      rw [readString] at h
      split_ifs at h with hhex hthree
      · obtain ⟨read', hread, rfl⟩ := map_eq_some_iff.mp h
        obtain ⟨h34, h92⟩ := ne_of_hexDigit hhex
        have hrest : Closes .inside t read'.2 := ih hread
        exact hrest.cons (step_inside h34 h92)
      · obtain ⟨h34, h92⟩ := ne_of_hexDigit hhex
        have hrest : Closes .inside t read.2 := ih h
        exact hrest.cons (step_inside h34 h92)

theorem balanced_readString {read : Text × Text} (h : readString .plain t = some read) :
    Balanced (34 :: t) read.2 := by
  obtain ⟨used, rfl, hused⟩ := closes_readString h
  refine ⟨34 :: used, rfl, fun depth => ?_⟩
  rw [scan_cons]
  exact hused depth

variable {read : Value × Text}

theorem balanced_readNumber (h : readNumber t = some read) : Balanced t read.2 := by
  have hsplit := takeWhile_append_dropWhile (p := isNumberUnit) (l := t)
  have hplain : ∀ c ∈ t.takeWhile isNumberUnit, Plain c :=
    fun c hc => (plain_of_numberUnit (mem_takeWhile_imp hc)).1
  have hbalanced := Balanced.of_plain _ (t.dropWhile isNumberUnit) hplain
  rw [hsplit] at hbalanced
  simp only [readNumber] at h
  split_ifs at h
  rw [← Option.some.inj h]
  exact hbalanced

theorem balanced_keyword {word rest : Text} (hword : ∀ c ∈ word, Plain c)
    (h : keyword word t = some rest) : Balanced t rest := by
  unfold keyword at h
  split_ifs at h with hp
  obtain ⟨rest', rfl⟩ := hp
  rw [drop_left, Option.some.injEq] at h
  rw [← h]
  exact Balanced.of_plain word rest' hword

theorem balanced_readWord (h : readWord t = some read) : Balanced t read.2 := by
  unfold readWord at h
  cases hn : keyword (ascii "null") t with
  | some rest =>
    rw [hn] at h
    rw [← Option.some.inj h]
    exact balanced_keyword (fun c hc => (plain_ascii "null" rfl c hc).1) hn
  | none =>
    cases ht : keyword (ascii "true") t with
    | some rest =>
      rw [hn, ht] at h
      rw [← Option.some.inj h]
      exact balanced_keyword (fun c hc => (plain_ascii "true" rfl c hc).1) ht
    | none =>
      cases hf : keyword (ascii "false") t with
      | some rest =>
        rw [hn, ht, hf] at h
        rw [← Option.some.inj h]
        exact balanced_keyword (fun c hc => (plain_ascii "false" rfl c hc).1) hf
      | none =>
        rw [hn, ht, hf] at h
        exact balanced_readNumber h

theorem balanced_readScalar (h : readScalar t = some read) : Balanced t read.2 := by
  unfold readScalar at h
  cases he : expect 34 t with
  | none =>
    rw [he] at h
    exact balanced_readWord h
  | some rest =>
    rw [he] at h
    obtain ⟨read', hread, rfl⟩ := map_eq_some_iff.mp h
    rw [expect_some he]
    exact balanced_readString hread

theorem balanced_read (fuel : ℕ) :
    (∀ t read, readValue fuel t = some read → Balanced t read.2) ∧
      (∀ t read, readItems fuel t = some read → Balanced t (93 :: read.2)) ∧
      ∀ t read, readMembers fuel t = some read → Balanced t (125 :: read.2) := by
  induction fuel with
  | zero =>
    refine ⟨?_, ?_, ?_⟩
    · exact fun t read h => by cases h
    · exact fun t read h => by cases h
    · exact fun t read h => by cases h
  | succ fuel ih =>
    obtain ⟨hvalue, hitems, hmembers⟩ := ih
    refine ⟨?_, ?_, ?_⟩
    · intro t read h
      refine (balanced_skip t).trans ?_
      rw [readValue] at h
      cases harray : expect 91 (skip t) with
      | some rest =>
        rw [harray] at h
        rw [expect_some harray]
        dsimp only at h
        cases hend : expect 93 (skip rest) with
        | some rest' =>
          rw [hend] at h
          have hskip := balanced_skip rest
          rw [expect_some hend] at hskip
          rw [← Option.some.inj h]
          exact hskip.bracket (.inl rfl) (.inl rfl)
        | none =>
          rw [hend] at h
          obtain ⟨read', hread, rfl⟩ := map_eq_some_iff.mp h
          exact (hitems rest read' hread).bracket (.inl rfl) (.inl rfl)
      | none =>
        cases hobject : expect 123 (skip t) with
        | some rest =>
          rw [harray, hobject] at h
          rw [expect_some hobject]
          dsimp only at h
          cases hend : expect 125 (skip rest) with
          | some rest' =>
            rw [hend] at h
            have hskip := balanced_skip rest
            rw [expect_some hend] at hskip
            rw [← Option.some.inj h]
            exact hskip.bracket (.inr rfl) (.inr rfl)
          | none =>
            rw [hend] at h
            obtain ⟨read', hread, rfl⟩ := map_eq_some_iff.mp h
            exact (hmembers rest read' hread).bracket (.inr rfl) (.inr rfl)
        | none =>
          rw [harray, hobject] at h
          exact balanced_readScalar h
    · intro t read h
      rw [readItems] at h
      obtain ⟨value, hread, h⟩ := bind_eq_some_iff.mp h
      refine (hvalue t value hread).trans ((balanced_skip value.2).trans ?_)
      cases hcomma : expect 44 (skip value.2) with
      | some rest =>
        rw [hcomma] at h
        rw [expect_some hcomma]
        obtain ⟨read', hrest, rfl⟩ := map_eq_some_iff.mp h
        have hplain : Plain 44 := by unfold Plain; decide
        exact (Balanced.plain hplain).trans (hitems rest read' hrest)
      | none =>
        rw [hcomma] at h
        obtain ⟨rest, hend, rfl⟩ := map_eq_some_iff.mp h
        rw [expect_some hend]
        exact Balanced.refl _
    · intro t read h
      rw [readMembers] at h
      obtain ⟨key, hkey, h⟩ := bind_eq_some_iff.mp h
      obtain ⟨value, hread, h⟩ := bind_eq_some_iff.mp h
      obtain ⟨rest, hquote, hkey⟩ := bind_eq_some_iff.mp hkey
      obtain ⟨rest', hcolon, hread⟩ := bind_eq_some_iff.mp hread
      have hstring := (balanced_readString hkey).trans (balanced_skip key.2)
      rw [expect_some hcolon] at hstring
      have hplain : ∀ c : UInt16, c = 44 ∨ c = 58 → Plain c := by
        rintro c (rfl | rfl) <;> (unfold Plain; decide)
      have hmember := (hstring.trans (Balanced.plain (hplain 58 (.inr rfl)))).trans
        (hvalue rest' value hread)
      have hstart := balanced_skip t
      rw [expect_some hquote] at hstart
      refine (hstart.trans hmember).trans ((balanced_skip value.2).trans ?_)
      cases hcomma : expect 44 (skip value.2) with
      | some more =>
        rw [hcomma] at h
        rw [expect_some hcomma]
        obtain ⟨read', hrest, rfl⟩ := map_eq_some_iff.mp h
        exact (Balanced.plain (hplain 44 (.inl rfl))).trans (hmembers more read' hrest)
      | none =>
        rw [hcomma] at h
        obtain ⟨rest, hend, rfl⟩ := map_eq_some_iff.mp h
        rw [expect_some hend]
        exact Balanced.refl _

theorem scan_of_parse {v : Value} (h : parse t = some v) (depth : ℤ) :
    scan ⟨.outside, depth⟩ t = ⟨.outside, depth⟩ := by
  obtain ⟨read, hread, h⟩ := bind_eq_some_iff.mp h
  split_ifs at h with hskip
  have hbalanced := ((balanced_read _).1 t read hread).trans (balanced_skip read.2)
  rw [hskip] at hbalanced
  obtain ⟨used, ht, hused⟩ := hbalanced
  rw [ht, append_nil, hused]

/-! ### Texts that are cut short -/

/-- Inside a string, or at least that many brackets are open. -/
def Scan.Open (depth : ℤ) (s : Scan) : Prop :=
  s.mode ≠ .outside ∨ depth ≤ s.depth

/-- Wherever the text is cut the scan is open. -/
def Above (depth : ℤ) : Scan → Text → Prop
  | s, [] => s.Open depth
  | s, c :: t => s.Open depth ∧ Above depth (s.step c) t

variable {s : Scan}

theorem Above.open (h : Above depth s t) : s.Open depth := by
  cases t with
  | nil => exact h
  | cons c t => exact h.1

theorem Above.append {depth : ℤ} {s : Scan} {t u : Text} (h : Above depth s t)
    (h' : Above depth (scan s t) u) : Above depth s (t ++ u) := by
  induction t generalizing s with
  | nil => exact h'
  | cons c t ih => exact ⟨h.1, ih h.2 h'⟩

theorem Above.mono {depth' : ℤ} (hle : depth' ≤ depth) (h : Above depth s t) :
    Above depth' s t := by
  have hopen : ∀ {s : Scan}, s.Open depth → s.Open depth' :=
    fun h => h.imp_right fun hd => hle.trans hd
  induction t generalizing s with
  | nil => exact hopen h
  | cons c t ih => exact ⟨hopen h.1, ih h.2⟩

theorem Above.cut {part : Text} (h : Above depth s t) (hp : part <+: t) :
    (scan s part).Open depth := by
  induction part generalizing s t with
  | nil => exact h.open
  | cons c part ih =>
    cases t with
    | nil => cases prefix_nil.mp hp
    | cons d t =>
      obtain ⟨rfl, hrest⟩ := cons_prefix_cons.mp hp
      exact ih h.2 hrest

/-- The text ends as it began, and does not close a bracket it has not opened. -/
def Level (t : Text) : Prop :=
  ∀ depth, Above depth ⟨.outside, depth⟩ t ∧ scan ⟨.outside, depth⟩ t = ⟨.outside, depth⟩

namespace Level

theorem nil : Level [] :=
  fun _ => ⟨.inr le_rfl, rfl⟩

theorem append {t u : Text} (h : Level t) (h' : Level u) : Level (t ++ u) := by
  intro depth
  refine ⟨(h depth).1.append ?_, ?_⟩
  · rw [(h depth).2]
    exact (h' depth).1
  · rw [scan_append, (h depth).2, (h' depth).2]

theorem cons {c : UInt16} {t : Text} (hc : Plain c) (h : Level t) : Level (c :: t) := by
  intro depth
  refine ⟨⟨.inr le_rfl, ?_⟩, ?_⟩
  · rw [step_plain hc]
    exact (h depth).1
  · rw [scan_cons, step_plain hc, (h depth).2]

theorem plain {t : Text} (h : ∀ c ∈ t, Plain c) : Level t := by
  induction t with
  | nil => exact nil
  | cons c t ih =>
    exact (ih fun d hd => h d (mem_cons_of_mem c hd)).cons (h c mem_cons_self)

theorem bracket {opening closing : UInt16} {t : Text} (ho : opening = 91 ∨ opening = 123)
    (hc : closing = 93 ∨ closing = 125) (h : Level t) : Level (opening :: (t ++ [closing])) := by
  intro depth
  have hle : depth ≤ depth + 1 := by omega
  refine ⟨⟨.inr le_rfl, ?_⟩, ?_⟩
  · rw [step_opening ho]
    refine ((h (depth + 1)).1.mono hle).append ?_
    rw [(h (depth + 1)).2]
    refine ⟨.inr hle, ?_⟩
    rw [step_closing hc]
    exact .inr le_rfl
  · rw [scan_cons, step_opening ho, scan_append, (h (depth + 1)).2, scan_cons, step_closing hc]
    rfl

end Level

theorem above_raw (h34 : c ≠ 34) (h92 : c ≠ 92) (h : Above depth ⟨.inside, depth⟩ t) :
    Above depth ⟨.inside, depth⟩ (c :: t) := by
  refine ⟨h.open, ?_⟩
  rw [step_inside h34 h92]
  exact h

theorem above_escaped (c : UInt16) (h : Above depth ⟨.inside, depth⟩ t) :
    Above depth ⟨.inside, depth⟩ (92 :: c :: t) :=
  ⟨h.open, .inl (fun hm => by cases hm), h⟩

theorem above_escape (c : UInt16) (h : Above depth ⟨.inside, depth⟩ t) :
    Above depth ⟨.inside, depth⟩ (escape c ++ t) := by
  have hlt : c.toNat < 65536 := c.toNat_lt
  have hhex : ∀ {n : ℕ} {t : Text}, n < 16 → Above depth ⟨.inside, depth⟩ t →
      Above depth ⟨.inside, depth⟩ (hexDigit n :: t) := by
    intro n t hn ht
    obtain ⟨h34, h92⟩ := ne_of_hexDigit (isHexDigit_hexDigit hn).1
    exact above_raw h34 h92 ht
  exact above_escaped 117 (hhex (by omega) (hhex (by omega) (hhex (by omega) (hhex (by omega) h))))

theorem above_single (c : UInt16) (h : Above depth ⟨.inside, depth⟩ t) :
    Above depth ⟨.inside, depth⟩ (single c ++ t) := by
  unfold single
  split_ifs
  · exact above_escape c h
  · unfold unit
    cases he : shortEscape c with
    | some e => exact above_escaped e h
    | none =>
      dsimp only
      split_ifs
      · exact above_escape c h
      · refine above_raw ?_ ?_ h
        · rintro rfl
          cases he
        · rintro rfl
          cases he

theorem above_quoteUnits (s : Text) (h : Above depth ⟨.inside, depth⟩ t) :
    Above depth ⟨.inside, depth⟩ (quoteUnits s ++ t) := by
  induction s using quoteUnits.induct with
  | case1 => exact h
  | case2 c => exact above_single c h
  | case3 c d rest hcd ih =>
    obtain ⟨hc, hd⟩ := Bool.and_eq_true_iff.mp hcd
    obtain ⟨hc34, hc92⟩ := ne_of_surrogate (.inl hc)
    obtain ⟨hd34, hd92⟩ := ne_of_surrogate (.inr hd)
    rw [quoteUnits, if_pos hcd, cons_append, cons_append]
    exact above_raw hc34 hc92 (above_raw hd34 hd92 ih)
  | case4 c d rest hcd ih =>
    rw [quoteUnits, if_neg hcd, append_assoc]
    exact above_single c ih

theorem level_quote (s : Text) : Level (quote s) := by
  intro depth
  obtain ⟨used, hquote, hused⟩ := balanced_readString (readString_quoteUnits s [])
  have hend : Above depth ⟨.inside, depth⟩ [34] :=
    ⟨.inl (fun hm => by cases hm), .inr le_rfl⟩
  refine ⟨⟨.inr le_rfl, above_quoteUnits s hend⟩, ?_⟩
  rw [append_nil] at hquote
  rw [quote, hquote, hused]

theorem level_texts : Texts Level where
  append := Level.append
  plain _ h := Level.plain fun c hc => (h c hc).1
  quote := level_quote
  bracket _ _ _ ho hc h := h.bracket ho hc

theorem Scan.Open.replacement (h : s.Open depth) : (s.step 0xFFFD).Open depth := by
  obtain ⟨mode, depth'⟩ := s
  cases mode with
  | outside => exact h
  | inside | escaped => exact .inl (fun hm => by cases hm)

theorem parse_cut {members : List (Text × Value)} {part tail : Text}
    (hp : part <+: (Value.object members).print) (hne : part ≠ (Value.object members).print)
    (htail : tail = [] ∨ tail = [0xFFFD]) : parse (part ++ tail) = none := by
  cases part with
  | nil =>
    rcases htail with rfl | rfl
    · rfl
    · rfl
  | cons c part =>
    rw [Value.print] at hp hne
    obtain ⟨rfl, hrest⟩ := cons_prefix_cons.mp hp
    have hpart : part <+: Value.printMembers members := by
      rcases prefix_concat_iff.mp hrest with heq | hrest
      · exact absurd (by rw [heq]) hne
      · exact hrest
    have hlevel := level_texts.printMembers fun m (_ : m ∈ members) => level_texts.print m.2
    have hopen : (scan ⟨.outside, 0⟩ (123 :: part ++ tail)).Open 1 := by
      have hcut : (scan ⟨.outside, 0⟩ (123 :: part)).Open 1 := (hlevel 1).1.cut hpart
      rcases htail with rfl | rfl
      · rw [append_nil]
        exact hcut
      · rw [scan_append]
        exact hcut.replacement
    cases hparse : parse (123 :: part ++ tail) with
    | none => rfl
    | some v =>
      rw [scan_of_parse hparse] at hopen
      rcases hopen with hmode | hdepth
      · exact absurd rfl hmode
      · exact absurd hdepth (by decide)

/-! ### Lines -/

/-- A text that stands on one line, every surrogate in a pair. -/
def Line (t : Text) : Prop :=
  Utf8.WellFormed t ∧ 10 ∉ t

/-- A code unit that can stand on its own in a line. -/
def Lone (c : UInt16) : Prop :=
  Utf8.isSurrogate c = false ∧ 32 ≤ c

theorem line_of_forall (h : ∀ c ∈ t, Lone c) : Line t := by
  refine ⟨Utf8.wellFormed_of_forall fun c hc => (h c hc).1, fun hm => ?_⟩
  exact absurd (h 10 hm).2 (by decide)

theorem Line.append {t u : Text} (h : Line t) (h' : Line u) : Line (t ++ u) := by
  refine ⟨Utf8.wellFormed_append h.1 h'.1, fun hm => ?_⟩
  rcases mem_append.mp hm with hm | hm
  · exact h.2 hm
  · exact h'.2 hm

theorem lone_escape {d : UInt16} (h : d ∈ escape c) : Lone d := by
  have hlt : c.toNat < 65536 := c.toNat_lt
  have hhex : ∀ n < 16, Utf8.isSurrogate (hexDigit n) = false ∧ 32 ≤ hexDigit n := by decide
  simp only [escape, mem_cons, not_mem_nil, or_false] at h
  rcases h with rfl | rfl | rfl | rfl | rfl | rfl
  · exact ⟨rfl, by decide⟩
  · exact ⟨rfl, by decide⟩
  · exact hhex _ (by omega)
  · exact hhex _ (by omega)
  · exact hhex _ (by omega)
  · exact hhex _ (by omega)

theorem lone_shortEscape {e : UInt16} (h : shortEscape c = some e) : Lone e := by
  unfold shortEscape at h
  split_ifs at h
  all_goals
    cases h
    exact ⟨rfl, by decide⟩

theorem lone_single {d : UInt16} (h : d ∈ single c) : Lone d := by
  unfold single at h
  split_ifs at h with hs
  · exact lone_escape h
  · unfold unit at h
    cases he : shortEscape c with
    | some e =>
      rw [he] at h
      rcases mem_cons.mp h with rfl | h
      · exact ⟨rfl, by decide⟩
      · rw [mem_singleton.mp h]
        exact lone_shortEscape he
    | none =>
      rw [he] at h
      dsimp only at h
      split_ifs at h with hc
      · exact lone_escape h
      · rw [mem_singleton.mp h]
        exact ⟨Bool.eq_false_iff.mpr hs, UInt16.not_lt.mp hc⟩

theorem line_quoteUnits (s : Text) : Line (quoteUnits s) := by
  induction s using quoteUnits.induct with
  | case1 => exact ⟨trivial, not_mem_nil⟩
  | case2 c =>
    rw [quoteUnits]
    exact line_of_forall fun d hd => lone_single hd
  | case3 c d rest hcd ih =>
    obtain ⟨hc, hd⟩ := Bool.and_eq_true_iff.mp hcd
    rw [quoteUnits, if_pos hcd]
    refine ⟨?_, fun hm => ?_⟩
    · rw [Utf8.WellFormed, if_pos hcd]
      exact ih.1
    · rcases mem_cons.mp hm with rfl | hm
      · exact absurd hc (by decide)
      · rcases mem_cons.mp hm with rfl | hm
        · exact absurd hd (by decide)
        · exact ih.2 hm
  | case4 c d rest hcd ih =>
    rw [quoteUnits, if_neg hcd]
    exact (line_of_forall fun e he => lone_single he).append ih

theorem line_singleton (h : Lone c) : Line [c] := by
  refine line_of_forall ?_
  intro d hd
  rw [mem_singleton.mp hd]
  exact h

theorem lone_of_plain (h : 32 ≤ c) (h' : c < 128) : Lone c := by
  rw [UInt16.lt_iff_toNat_lt] at h'
  have h128 : (128 : UInt16).toNat = 128 := rfl
  refine ⟨Utf8.isSurrogate_eq_false.mpr ?_, h⟩
  omega

theorem line_texts : Texts Line where
  append := Line.append
  plain _ h := line_of_forall fun c hc => lone_of_plain (h c hc).2.1 (h c hc).2.2
  quote s := by
    have hmark : Line [34] := line_singleton ⟨rfl, by decide⟩
    exact (hmark.append (line_quoteUnits s)).append hmark
  bracket opening closing t ho hc h := by
    have hopening : Line [opening] := by
      refine line_singleton ?_
      rcases ho with rfl | rfl <;> exact ⟨rfl, by decide⟩
    have hclosing : Line [closing] := by
      refine line_singleton ?_
      rcases hc with rfl | rfl <;> exact ⟨rfl, by decide⟩
    exact hopening.append (h.append hclosing)

theorem Value.line_print (v : Value) : Line v.print :=
  line_texts.print v

end JsonText
