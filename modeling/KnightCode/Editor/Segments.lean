import KnightCode.Editor.Display
import Mathlib.Data.List.TakeWhile

/-!
# Graphemes with paste markers merged

A paste marker with a known id becomes one segment. Whatever a segment is, it begins where a
grapheme begins, and it stands for the graphemes up to the next segment. Where the segments'
texts together are the line, each one is a grapheme or a whole marker; they are not when an end
of a marker lies inside a grapheme.
-/

namespace KnightCode.Editor

open List Option
variable {c : UInt16} {id segment : Text} {index : ℕ} {groups : List (List Text)}

/-! ### Markers -/

def isDigit (c : UInt16) : Bool :=
  48 ≤ c && c ≤ 57

/-- `[paste #` -/
def markerStart : Text := [91, 112, 97, 115, 116, 101, 32, 35]

/-- ` +`, then digits, then ` lines]` -/
def linesEnd : Text := [32, 108, 105, 110, 101, 115, 93]

/-- ` chars]` -/
def charsEnd : Text := [32, 99, 104, 97, 114, 115, 93]

/-- `(\+\d+ lines|\d+ chars)\]`: how many units match. -/
def sizeLength (text : Text) : Option ℕ :=
  let digits (t : Text) := (t.takeWhile isDigit).length
  if text.head? = some 43 then
    if 0 < digits text.tail ∧ linesEnd <+: text.tail.drop (digits text.tail) then
      some (1 + digits text.tail + linesEnd.length)
    else none
  else if 0 < digits text ∧ charsEnd <+: text.drop (digits text) then
    some (digits text + charsEnd.length)
  else none

structure MarkerMatch where
  id : Text
  length : ℕ

/-- The match when this is what follows the digits: `]`, or a blank and a size. -/
def matchSize (id : Text) : Text → Option MarkerMatch
  | [] => none
  | c :: size =>
    if c = 93 then some ⟨id, markerStart.length + id.length + 1⟩
    else if c = 32 then
      (sizeLength size).map fun n => ⟨id, markerStart.length + id.length + 1 + n⟩
    else none

/-- `PASTE_MARKER_REGEX` at the text's front: the digits of the id and the match's length. -/
def matchMarker (text : Text) : Option MarkerMatch :=
  if markerStart <+: text then
    let rest := text.drop markerStart.length
    let id := rest.takeWhile isDigit
    if id = [] then none else matchSize id (rest.drop id.length)
  else none

/-- `PASTE_MARKER_SINGLE`: the match is the whole segment. -/
def isPasteMarker (segment : Text) : Bool :=
  10 ≤ segment.length &&
    match matchMarker segment with
    | some found => found.length == segment.length
    | none => false

/-- The markers the expression stands for, with their ids. -/
inductive IsMarker : Text → Text → Prop
  | bare {id : Text} (hne : id ≠ []) (hid : ∀ c ∈ id, isDigit c = true) :
      IsMarker id (markerStart ++ (id ++ [93]))
  | lines {id n : Text} (hne : id ≠ []) (hid : ∀ c ∈ id, isDigit c = true) (hn : n ≠ [])
      (hdigits : ∀ c ∈ n, isDigit c = true) :
      IsMarker id (markerStart ++ (id ++ 32 :: 43 :: (n ++ linesEnd)))
  | chars {id n : Text} (hne : id ≠ []) (hid : ∀ c ∈ id, isDigit c = true) (hn : n ≠ [])
      (hdigits : ∀ c ∈ n, isDigit c = true) :
      IsMarker id (markerStart ++ (id ++ 32 :: (n ++ charsEnd)))

theorem takeWhile_digits {digits : Text} (h : ∀ c ∈ digits, isDigit c = true)
    (hc : isDigit c = false) (rest : Text) : (digits ++ c :: rest).takeWhile isDigit = digits := by
  rw [takeWhile_append_of_pos h, takeWhile_cons_of_neg (by rw [hc]; exact nofun),
    append_nil]

theorem takeWhile_drop (text : Text) :
    text = text.takeWhile isDigit ++ text.drop (text.takeWhile isDigit).length := by
  have hbegins := takeWhile_prefix (p := isDigit) (l := text)
  exact (prefix_iff_eq_append.mp hbegins).symm

variable {text : Text}

theorem sizeLength_some {n : ℕ} (h : sizeLength text = some n) :
    ∃ digits rest, digits ≠ [] ∧ (∀ c ∈ digits, isDigit c = true) ∧
      (text = 43 :: (digits ++ linesEnd) ++ rest ∧ n = (43 :: (digits ++ linesEnd)).length ∨
        text = digits ++ charsEnd ++ rest ∧ n = (digits ++ charsEnd).length) := by
  rw [sizeLength] at h
  dsimp only at h
  split_ifs at h with hplus hlines hchars
  · obtain ⟨hpos, rest, hrest⟩ := hlines
    obtain ⟨tail, rfl⟩ := head?_eq_some_iff.mp hplus
    rw [tail_cons] at hpos hrest h
    refine ⟨tail.takeWhile isDigit, rest, length_pos_iff.mp hpos,
      fun c hc => mem_takeWhile_imp hc, .inl ⟨?_, ?_⟩⟩
    · rw [cons_append, append_assoc, hrest, ← takeWhile_drop]
    · rw [length_cons, length_append]
      have := some.inj h
      omega
  · obtain ⟨hpos, rest, hrest⟩ := hchars
    refine ⟨text.takeWhile isDigit, rest, length_pos_iff.mp hpos,
      fun c hc => mem_takeWhile_imp hc, .inr ⟨?_, ?_⟩⟩
    · rw [append_assoc, hrest, ← takeWhile_drop]
    · rw [length_append]
      exact (some.inj h).symm

theorem matchMarker_some {found : MarkerMatch} (h : matchMarker text = some found) :
    ∃ marker rest, IsMarker found.id marker ∧ text = marker ++ rest ∧
      found.length = marker.length := by
  rw [matchMarker] at h
  split_ifs at h with hstart
  obtain ⟨tail, rfl⟩ := hstart
  rw [drop_left] at h
  dsimp only at h
  split_ifs at h with hid
  have hdigits : ∀ c ∈ tail.takeWhile isDigit, isDigit c = true :=
    fun c hc => mem_takeWhile_imp hc
  have htail := takeWhile_drop tail
  generalize tail.takeWhile isDigit = id at *
  cases hrest : tail.drop id.length with
  | nil =>
    rw [hrest] at h
    cases h
  | cons c size =>
    rw [hrest] at h htail
    rw [matchSize] at h
    split_ifs at h with hbare hblank
    · cases h
      refine ⟨_, size, .bare hid hdigits, ?_, ?_⟩
      · rw [htail, hbare, append_assoc, append_assoc, singleton_append]
      · rw [length_append, length_append, length_singleton, add_assoc]
    · obtain ⟨n, hn, rfl⟩ := map_eq_some_iff.mp h
      obtain ⟨digits, rest, hne, hall, ⟨rfl, rfl⟩ | ⟨rfl, rfl⟩⟩ := sizeLength_some hn
      · refine ⟨_, rest, .lines hid hdigits hne hall, by simp [htail, hblank], ?_⟩
        simp only [length_append, length_cons]
        omega
      · refine ⟨_, rest, .chars hid hdigits hne hall, by simp [htail, hblank], ?_⟩
        simp only [length_append, length_cons]
        omega

theorem matchMarker_start (hne : id ≠ []) (hid : ∀ c ∈ id, isDigit c = true)
    (hc : isDigit c = false) (rest : Text) :
    matchMarker (markerStart ++ (id ++ c :: rest)) = matchSize id (c :: rest) := by
  rw [matchMarker, if_pos (prefix_append _ _), drop_left]
  dsimp only
  rw [takeWhile_digits hid hc, if_neg hne, drop_left]

theorem matchMarker_sized {size rest : Text} (hne : id ≠ []) (hid : ∀ c ∈ id, isDigit c = true)
    (hsize : sizeLength (size ++ rest) = some size.length) :
    matchMarker (markerStart ++ (id ++ 32 :: size) ++ rest) =
      some ⟨id, (markerStart ++ (id ++ 32 :: size)).length⟩ := by
  rw [append_assoc, append_assoc, cons_append, matchMarker_start hne hid rfl, matchSize,
    if_neg (by decide), if_pos rfl, hsize, map_some]
  simp only [length_append, length_cons]
  congr 2
  omega

variable {marker : Text} {markers : List Marker}

theorem IsMarker.matches (h : IsMarker id marker) (rest : Text) :
    matchMarker (marker ++ rest) = some ⟨id, marker.length⟩ := by
  cases h with
  | bare hne hid =>
    rw [append_assoc, append_assoc, singleton_append,
      matchMarker_start hne hid rfl, matchSize, if_pos rfl]
    simp only [length_append, length_singleton, add_assoc]
  | @lines n hne hid hn hdigits =>
    refine matchMarker_sized hne hid ?_
    have htake : (n ++ (linesEnd ++ rest)).takeWhile isDigit = n := takeWhile_digits hdigits rfl _
    rw [sizeLength, cons_append, append_assoc, head?_cons, if_pos rfl, tail_cons]
    simp only [htake, drop_left]
    rw [if_pos ⟨length_pos_iff.mpr hn, prefix_append _ _⟩]
    simp only [length_append, length_cons]
    congr 1
    omega
  | @chars n hne hid hn hdigits =>
    refine matchMarker_sized hne hid ?_
    have htake : (n ++ (charsEnd ++ rest)).takeWhile isDigit = n := takeWhile_digits hdigits rfl _
    obtain ⟨c, n, rfl⟩ := exists_cons_of_ne_nil hn
    have hplus : c ≠ 43 := by
      rintro rfl
      exact absurd (hdigits 43 mem_cons_self) (by decide)
    rw [sizeLength, append_assoc]
    dsimp only
    rw [cons_append, head?_cons, if_neg (fun heq => hplus (some.inj heq)), ← cons_append]
    simp only [htake, drop_left]
    rw [if_pos ⟨length_pos_iff.mpr hn, prefix_append _ _⟩, length_append]

theorem isPrintable_of_isDigit (h : isDigit c = true) : isPrintable c = true := by
  rw [isDigit, Bool.and_eq_true, decide_eq_true_iff, decide_eq_true_iff, UInt16.le_iff_toNat_le,
    UInt16.le_iff_toNat_le] at h
  rw [isPrintable, Bool.and_eq_true, decide_eq_true_iff, decide_eq_true_iff,
    UInt16.le_iff_toNat_le, UInt16.le_iff_toNat_le]
  have h48 : (48 : UInt16).toNat = 48 := rfl
  have h57 : (57 : UInt16).toNat = 57 := rfl
  have h20 : (0x20 : UInt16).toNat = 0x20 := rfl
  have h7e : (0x7e : UInt16).toNat = 0x7e := rfl
  omega

theorem IsMarker.printable (h : IsMarker id marker) : ∀ c ∈ marker, isPrintable c = true := by
  have hstart : ∀ c ∈ markerStart, isPrintable c = true := all_eq_true.mp (by decide)
  have hlines : ∀ c ∈ linesEnd, isPrintable c = true := all_eq_true.mp (by decide)
  have hchars : ∀ c ∈ charsEnd, isPrintable c = true := all_eq_true.mp (by decide)
  intro c hc
  cases h with
  | bare hne hid =>
    simp only [mem_append, mem_singleton] at hc
    rcases hc with hc | hc | rfl
    · exact hstart c hc
    · exact isPrintable_of_isDigit (hid c hc)
    · rfl
  | lines hne hid hn hdigits =>
    simp only [mem_append, mem_cons] at hc
    rcases hc with hc | hc | rfl | rfl | hc | hc
    · exact hstart c hc
    · exact isPrintable_of_isDigit (hid c hc)
    · rfl
    · rfl
    · exact isPrintable_of_isDigit (hdigits c hc)
    · exact hlines c hc
  | chars hne hid hn hdigits =>
    simp only [mem_append, mem_cons] at hc
    rcases hc with hc | hc | rfl | hc | hc
    · exact hstart c hc
    · exact isPrintable_of_isDigit (hid c hc)
    · rfl
    · exact isPrintable_of_isDigit (hdigits c hc)
    · exact hchars c hc

theorem IsMarker.ten_le (h : IsMarker id marker) : 10 ≤ marker.length := by
  have hstart : markerStart.length = 8 := rfl
  cases h with
  | bare hne hid =>
    have := length_pos_iff.mpr hne
    simp only [length_append, length_singleton]
    omega
  | lines hne hid hn hdigits | chars hne hid hn hdigits =>
    have := length_pos_iff.mpr hne
    simp only [length_append, length_cons]
    omega

theorem isPasteMarker_iff : isPasteMarker segment = true ↔ ∃ id, IsMarker id segment := by
  rw [isPasteMarker, Bool.and_eq_true, decide_eq_true_iff]
  constructor
  · rintro ⟨-, hmatch⟩
    cases hfound : matchMarker segment with
    | none =>
      rw [hfound] at hmatch
      cases hmatch
    | some found =>
      rw [hfound] at hmatch
      obtain ⟨marker, rest, hmarker, rfl, hlength⟩ := matchMarker_some hfound
      have hall : found.length = (marker ++ rest).length := beq_iff_eq.mp hmatch
      rw [hlength, length_append] at hall
      have hrest : rest = [] := length_eq_zero_iff.mp (by omega)
      rw [hrest, append_nil]
      exact ⟨_, hmarker⟩
  · rintro ⟨id, h⟩
    refine ⟨h.ten_le, ?_⟩
    have hfound := h.matches []
    rw [append_nil] at hfound
    rw [hfound]
    exact beq_self_eq_true _

structure Marker where
  start : ℕ
  stop : ℕ

/-- `matchAll`, from `index` on, for the markers whose id is known. The first argument counts the
units of a match that are still to be passed. -/
def findMarkers (valid : Text → Bool) : ℕ → ℕ → Text → List Marker
  | _, _, [] => []
  | skip + 1, index, _ :: rest => findMarkers valid skip (index + 1) rest
  | 0, index, c :: rest =>
    match matchMarker (c :: rest) with
    | some found =>
      if valid found.id then
        ⟨index, index + found.length⟩ :: findMarkers valid (found.length - 1) (index + 1) rest
      else findMarkers valid (found.length - 1) (index + 1) rest
    | none => findMarkers valid 0 (index + 1) rest

/-! ### Segments -/

structure SegmentData where
  segment : Text
  index : ℕ

def placed (index : ℕ) : List Text → List SegmentData
  | [] => []
  | segment :: rest => ⟨segment, index⟩ :: placed (index + segment.length) rest

/-- The text from one place to another. -/
def slice (text : Text) (start stop : ℕ) : Text :=
  (text.take stop).drop start

def mergeSegments (text : Text) : List Marker → List SegmentData → List SegmentData
  | _, [] => []
  | markers, seg :: rest =>
    let markers := markers.dropWhile fun m => decide (m.stop ≤ seg.index)
    match markers.head? with
    | some marker =>
      if marker.start ≤ seg.index ∧ seg.index < marker.stop then
        if seg.index = marker.start then
          ⟨slice text marker.start marker.stop, marker.start⟩ :: mergeSegments text markers rest
        else mergeSegments text markers rest
      else seg :: mergeSegments text markers rest
    | none => seg :: mergeSegments text markers rest

/-- `validIds.has(parseInt(id))` is `valid`. -/
def segmentWithMarkers (d : Display) (valid : Text → Bool) (text : Text) : List SegmentData :=
  let markers := findMarkers valid 0 0 text
  if markers.isEmpty then placed 0 (d.segment text)
  else mergeSegments text markers (placed 0 (d.segment text))

/-! ### What the markers are -/

structure Marker.In (line : Text) (m : Marker) : Prop where
  lt : m.start < m.stop
  le : m.stop ≤ line.length
  marker : isPasteMarker (slice line m.start m.stop) = true

/-- Spans of markers from a place on, one behind the other. -/
structure MarkersFrom (line : Text) (index : ℕ) (markers : List Marker) : Prop where
  each : ∀ m ∈ markers, m.In line ∧ index ≤ m.start
  behind : markers.Pairwise fun m n => m.stop ≤ n.start

theorem MarkersFrom.nil (line : Text) (index : ℕ) : MarkersFrom line index [] :=
  ⟨fun _ hm => (by cases hm), .nil⟩

theorem slice_append (before text : Text) (n : ℕ) :
    slice (before ++ text) before.length (before.length + n) = text.take n := by
  rw [slice, take_length_add_append, drop_left]

theorem findMarkers_from (valid : Text → Bool) (before text : Text) (skip : ℕ)
    (hskip : skip ≤ text.length) :
    MarkersFrom (before ++ text) (before.length + skip)
      (findMarkers valid skip before.length text) := by
  induction text generalizing before skip with
  | nil =>
    rw [show findMarkers valid skip before.length [] = [] by cases skip <;> rfl]
    exact .nil _ _
  | cons c rest ih =>
    have hnext : before ++ c :: rest = (before ++ [c]) ++ rest := by
      rw [append_assoc, singleton_append]
    have hlength : (before ++ [c]).length = before.length + 1 := length_append
    rw [length_cons] at hskip
    cases skip with
    | succ skip =>
      have hrest := ih (before ++ [c]) skip (by omega)
      rw [hlength, add_right_comm] at hrest
      rw [findMarkers, hnext]
      exact hrest
    | zero =>
      rw [findMarkers]
      cases hfound : matchMarker (c :: rest) with
      | none =>
        have hrest := ih (before ++ [c]) 0 (Nat.zero_le _)
        rw [hlength] at hrest
        rw [hnext]
        exact ⟨fun m hm => ⟨(hrest.each m hm).1, by have := (hrest.each m hm).2; omega⟩,
          hrest.behind⟩
      | some found =>
        obtain ⟨marker, more, hmarker, heq, hfl⟩ := matchMarker_some hfound
        have hten := hmarker.ten_le
        have hle : found.length ≤ rest.length + 1 := by
          have := congrArg length heq
          rw [length_cons, length_append] at this
          omega
        have hrest := ih (before ++ [c]) (found.length - 1) (by omega)
        rw [hlength, ← hnext,
          show before.length + 1 + (found.length - 1) = before.length + found.length by omega]
          at hrest
        have hrest' : MarkersFrom (before ++ c :: rest) (before.length + 0)
            (findMarkers valid (found.length - 1) (before.length + 1) rest) :=
          ⟨fun m hm => ⟨(hrest.each m hm).1, by have := (hrest.each m hm).2; omega⟩,
            hrest.behind⟩
        dsimp only
        split_ifs
        · refine ⟨fun m hm => ?_, pairwise_cons.mpr
            ⟨fun m hm => (hrest.each m hm).2, hrest.behind⟩⟩
          rcases mem_cons.mp hm with rfl | hm
          · refine ⟨⟨by dsimp only; omega, ?_, ?_⟩, le_refl _⟩
            · dsimp only
              rw [length_append, length_cons]
              omega
            · dsimp only
              rw [slice_append, heq, hfl, take_left]
              exact isPasteMarker_iff.mpr ⟨_, hmarker⟩
          · exact hrest'.each m hm
        · exact hrest'

/-! ### What the segments stand for -/

/-- A segment is the first of the graphemes it stands for, or a marker they begin with. -/
inductive Stands : Text → List Text → Prop
  | grapheme (g : Text) (dropped : List Text) : Stands g (g :: dropped)
  | marker {segment : Text} {group : List Text} (h : isPasteMarker segment = true)
      (hbegins : segment <+: group.flatten) : Stands segment group

inductive Spans : ℕ → List SegmentData → List (List Text) → Prop
  | nil (index : ℕ) : Spans index [] []
  | cons {index : ℕ} {segment : Text} {group : List Text} {segs : List SegmentData}
      {groups : List (List Text)} (h : Stands segment group)
      (hrest : Spans (index + group.flatten.length) segs groups) :
      Spans index (⟨segment, index⟩ :: segs) (group :: groups)

variable {line : Text}

theorem MarkersFrom.dropWhile (h : MarkersFrom line index markers) (p : Marker → Bool) :
    MarkersFrom line index (markers.dropWhile p) :=
  have hsub := dropWhile_sublist (l := markers) p
  ⟨fun m hm => h.each m (hsub.subset hm), h.behind.sublist hsub⟩

theorem mem_dropWhile_or {index : ℕ} {m : Marker} (hm : m ∈ markers) :
    m.stop ≤ index ∨ m ∈ markers.dropWhile fun m => decide (m.stop ≤ index) := by
  rw [← takeWhile_append_dropWhile (p := fun m : Marker => decide (m.stop ≤ index))
    (l := markers)] at hm
  rcases mem_append.mp hm with hm | hm
  · have hle := mem_takeWhile_imp hm
    exact .inl (of_decide_eq_true hle)
  · exact .inr hm

/-- The graphemes from a place on are some that begin inside a marker, which no segment stands
for here, and those the segments stand for. -/
theorem mergeSegments_spans {gs : List Text} (hne : [] ∉ gs) {before : Text}
    (hline : line = before ++ gs.flatten) (hmarkers : MarkersFrom line index markers) :
    ∃ dropped groups, gs = dropped ++ groups.flatten ∧
      Spans (before.length + dropped.flatten.length)
        (mergeSegments line markers (placed before.length gs)) groups ∧
      (∀ m ∈ markers, m.start < before.length → m.stop ≤ before.length + dropped.flatten.length) ∧
      (dropped ≠ [] → ∃ m ∈ markers, m.start < before.length) := by
  induction gs generalizing before markers with
  | nil =>
    refine ⟨[], [], rfl, ?_, fun m hm _ => ?_, fun h => absurd rfl h⟩
    · rw [placed, mergeSegments]
      exact .nil _
    · have hle := (hmarkers.each m hm).1.le
      rw [hline, flatten_nil, append_nil] at hle
      exact Nat.le_add_right_of_le hle
  | cons g gs ih =>
    have hg : 0 < g.length := length_pos_iff.mpr fun h => hne (h ▸ mem_cons_self)
    have hline' : line = (before ++ g) ++ gs.flatten := by
      rw [hline, flatten_cons, append_assoc]
    have hlength : (before ++ g).length = before.length + g.length := length_append
    have hrest := hmarkers.dropWhile fun m => decide (m.stop ≤ before.length)
    have hpast := @mem_dropWhile_or markers before.length
    rw [placed, mergeSegments]
    dsimp only
    cases hdrop : markers.dropWhile fun m => decide (m.stop ≤ before.length) with
    | nil =>
      rw [hdrop] at hrest hpast
      obtain ⟨dropped, groups, rfl, hspans, -, hnone⟩ :=
        ih (fun h => hne (mem_cons_of_mem _ h)) hline' hrest
      have hempty : dropped = [] := by
        by_contra hdropped
        obtain ⟨m, hm, -⟩ := hnone hdropped
        cases hm
      subst hempty
      rw [hlength] at hspans
      refine ⟨[], [g] :: groups, rfl, .cons (.grapheme g []) ?_, fun m hm _ => ?_,
        fun h => absurd rfl h⟩
      · rw [flatten_singleton]
        exact hspans
      · exact Nat.le_add_right_of_le ((hpast hm).resolve_right (by exact not_mem_nil))
    | cons m ms =>
      rw [hdrop] at hrest hpast
      have hstop : before.length < m.stop := by
        have := head?_dropWhile_not (fun m : Marker => decide (m.stop ≤ before.length)) markers
        rw [hdrop] at this
        simpa using this
      obtain ⟨dropped, groups, rfl, hspans, hcovers, -⟩ :=
        ih (fun h => hne (mem_cons_of_mem _ h)) hline' hrest
      have hms : ∀ n ∈ ms, before.length < n.start := fun n hn =>
        hstop.trans_le ((pairwise_cons.mp hrest.behind).1 n hn)
      have hcover := hcovers m mem_cons_self
      rw [hlength] at hspans hcover
      have hsum : (g :: dropped).flatten.length = g.length + dropped.flatten.length := by
        rw [flatten_cons, length_append]
      rw [head?_cons]
      dsimp only
      split_ifs with hinside hstart
      · -- the marker begins with this grapheme
        refine ⟨[], (g :: dropped) :: groups, rfl, ?_, fun n hn hlt => ?_, fun h => absurd rfl h⟩
        · rw [flatten_nil, length_nil, add_zero, ← hstart]
          refine .cons (.marker ?_ ?_) ?_
          · rw [hstart]
            exact (hrest.each m mem_cons_self).1.marker
          · have hstop' := hcover (by omega)
            rw [← Nat.add_sub_cancel' hstop.le, hline', flatten_append, append_assoc,
              ← append_assoc g, ← @flatten_cons _ g dropped, slice_append,
              take_append_of_le_length (by omega)]
            exact take_prefix _ _
          · rw [hsum, ← add_assoc]
            exact hspans
        · rcases hpast hn with hle | hn
          · exact Nat.le_add_right_of_le hle
          · rcases mem_cons.mp hn with rfl | hn
            · omega
            · have := hms n hn
              omega
      · -- inside a marker that began before
        refine ⟨g :: dropped, groups, rfl, ?_, fun n hn hlt => ?_,
          fun _ => ⟨m, (dropWhile_sublist _).subset (hdrop ▸ mem_cons_self), by omega⟩⟩
        · rw [hsum, ← add_assoc]
          exact hspans
        · rw [hsum]
          rcases hpast hn with hle | hn
          · omega
          · rcases mem_cons.mp hn with rfl | hn
            · have := hcover (by omega)
              omega
            · have := hms n hn
              omega
      · refine ⟨[], (g :: dropped) :: groups, rfl, .cons (.grapheme g dropped) ?_,
          fun n hn hlt => ?_, fun h => absurd rfl h⟩
        · rw [hsum]
          rw [← add_assoc]
          exact hspans
        · rcases hpast hn with hle | hn
          · exact Nat.le_add_right_of_le hle
          · rcases mem_cons.mp hn with rfl | hn
            · omega
            · have := hms n hn
              omega

theorem mergeSegments_nil (text : Text) (segs : List SegmentData) :
    mergeSegments text [] segs = segs := by
  induction segs with
  | nil => rfl
  | cons seg segs ih =>
    rw [mergeSegments]
    exact congrArg (seg :: ·) ih

variable {d : Display}

/-- Every segment stands for the pieces from its place to the next segment's, whatever pieces the
text is cut into. -/
theorem spans_of_flatten (hflat : (d.segment line).flatten = line) (hne : [] ∉ d.segment line)
    (valid : Text → Bool) :
    ∃ groups, groups.flatten = d.segment line ∧
      Spans 0 (segmentWithMarkers d valid line) groups := by
  have hmarkers := findMarkers_from valid [] line 0 (Nat.zero_le _)
  have heq : segmentWithMarkers d valid line =
      mergeSegments line (findMarkers valid 0 0 line) (placed 0 (d.segment line)) := by
    rw [segmentWithMarkers]
    split_ifs with hempty
    · rw [isEmpty_iff.mp hempty, mergeSegments_nil]
    · rfl
  have hline : line = [] ++ (d.segment line).flatten := hflat.symm
  obtain ⟨dropped, groups, hgs, hspans, -, hnone⟩ := mergeSegments_spans hne hline hmarkers
  have hempty : dropped = [] := by
    by_contra hdropped
    obtain ⟨m, -, hlt⟩ := hnone hdropped
    exact Nat.not_lt_zero _ hlt
  subst hempty
  refine ⟨groups, hgs.symm, ?_⟩
  rw [heq]
  exact hspans

theorem segmentWithMarkers_spans (hd : d.Lawful) (valid : Text → Bool) (line : Text) :
    ∃ groups, groups.flatten = d.segment line ∧ Spans 0 (segmentWithMarkers d valid line) groups :=
  spans_of_flatten (hd.flatten line) (hd.ne_nil line) valid

/-- Segments that are graphemes, or markers merged from whole graphemes. -/
structure Merged (d : Display) (line : Text) (segs : List SegmentData)
    (groups : List (List Text)) : Prop where
  graphemes : groups.flatten = d.segment line
  places : segs = placed 0 (groups.map flatten)
  each : ∀ group ∈ groups, (∃ g, group = [g]) ∨ isPasteMarker group.flatten = true

theorem Stands.length_le {group : List Text} (h : Stands segment group) :
    segment.length ≤ group.flatten.length := by
  cases h with
  | grapheme dropped =>
    rw [flatten_cons, length_append]
    exact Nat.le_add_right _ _
  | marker _ hbegins => exact hbegins.length_le

variable {segs : List SegmentData}

theorem Spans.length_le (h : Spans index segs groups) :
    (segs.flatMap SegmentData.segment).length ≤ groups.flatten.flatten.length := by
  induction h with
  | nil => exact le_refl _
  | cons hstands _ ih =>
    rw [flatMap_cons, length_append, flatten_cons, flatten_append, length_append]
    exact Nat.add_le_add hstands.length_le ih

theorem Spans.whole (h : Spans index segs groups) (hne : [] ∉ groups.flatten)
    (hall : groups.flatten.flatten.length ≤ (segs.flatMap SegmentData.segment).length) :
    segs = placed index (groups.map flatten) ∧
      ∀ group ∈ groups, (∃ g, group = [g]) ∨ isPasteMarker group.flatten = true := by
  induction h with
  | nil => exact ⟨rfl, fun _ h => (by cases h)⟩
  | @cons index segment group segs groups hstands hrest ih =>
    rw [flatten_cons, mem_append, not_or] at hne
    rw [flatMap_cons, length_append, flatten_cons, flatten_append,
      length_append] at hall
    dsimp only at hall
    have hle := hrest.length_le
    have hle' := hstands.length_le
    obtain ⟨hplaces, heach⟩ := ih hne.2 (by omega)
    have hgroup : segment = group.flatten ∧
        ((∃ g, group = [g]) ∨ isPasteMarker group.flatten = true) := by
      cases hstands with
      | grapheme dropped =>
        rw [flatten_cons, length_append] at hall hle'
        have hnil : dropped = [] := by
          have hflat : dropped.flatten = [] := length_eq_zero_iff.mp (by omega)
          refine eq_nil_iff_forall_not_mem.mpr fun g hg => hne.1 ?_
          exact mem_cons_of_mem _ (flatten_eq_nil_iff.mp hflat g hg ▸ hg)
        subst hnil
        exact ⟨(flatten_singleton).symm, .inl ⟨_, rfl⟩⟩
      | marker hmarker hbegins =>
        have heq := hbegins.eq_of_length (by omega)
        exact ⟨heq, .inr (heq ▸ hmarker)⟩
    obtain ⟨rfl, hone⟩ := hgroup
    refine ⟨?_, fun other hother => ?_⟩
    · rw [map_cons, placed, ← hplaces]
    · rcases mem_cons.mp hother with rfl | hother
      · exact hone
      · exact heach other hother

theorem segmentWithMarkers_merged (hd : d.Lawful) (valid : Text → Bool) (line : Text)
    (hwhole : (segmentWithMarkers d valid line).flatMap SegmentData.segment = line) :
    ∃ groups, Merged d line (segmentWithMarkers d valid line) groups := by
  obtain ⟨groups, hgs, hspans⟩ := segmentWithMarkers_spans hd valid line
  obtain ⟨hplaces, heach⟩ := hspans.whole (hgs ▸ hd.ne_nil line)
    (by rw [hgs, hwhole, hd.flatten])
  exact ⟨groups, hgs, hplaces, heach⟩

/-! ### How long the segments are -/

def units (segs : List SegmentData) : ℕ :=
  (segs.map fun seg => seg.segment.length).sum

/-- The pieces of a text are the text, and none of them is empty. -/
structure Cuts (d : Display) : Prop where
  flatten (t : Text) : (d.segment t).flatten = t
  ne_nil (t : Text) : [] ∉ d.segment t

theorem Display.Lawful.cuts (hd : d.Lawful) : Cuts d :=
  ⟨hd.flatten, hd.ne_nil⟩

@[simp] theorem units_nil : units [] = 0 := rfl

@[simp] theorem units_cons (seg : SegmentData) (segs : List SegmentData) :
    units (seg :: segs) = seg.segment.length + units segs :=
  sum_cons

theorem units_append (segs more : List SegmentData) :
    units (segs ++ more) = units segs + units more := by
  rw [units, map_append, sum_append, units, units]

theorem units_reverse (segs : List SegmentData) : units segs.reverse = units segs := by
  rw [units, map_reverse, sum_reverse, units]

variable {seg : SegmentData}

theorem length_le_units (h : seg ∈ segs) : seg.segment.length ≤ units segs :=
  single_le_sum (fun _ _ => Nat.zero_le _) _ (mem_map_of_mem h)

theorem units_eq_flatMap (segs : List SegmentData) :
    units segs = (segs.flatMap SegmentData.segment).length := by
  rw [units, length_flatMap]

theorem Stands.ne_nil {group : List Text} (h : Stands segment group) (hne : [] ∉ group) :
    segment ≠ [] := by
  cases h with
  | grapheme dropped =>
    rintro rfl
    exact hne mem_cons_self
  | marker hmarker _ =>
    rintro rfl
    cases hmarker

theorem Spans.ne_nil (h : Spans index segs groups) (hne : [] ∉ groups.flatten) (hseg : seg ∈ segs) :
    seg.segment ≠ [] := by
  induction h with
  | nil => cases hseg
  | cons hstands _ ih =>
    rw [flatten_cons, mem_append, not_or] at hne
    rcases mem_cons.mp hseg with rfl | hseg
    · exact hstands.ne_nil hne.1
    · exact ih hne.2 hseg

section
variable (hcuts : Cuts d) (valid : Text → Bool)
include hcuts

theorem units_le (text : Text) : units (segmentWithMarkers d valid text) ≤ text.length := by
  obtain ⟨groups, hgroups, hspans⟩ := spans_of_flatten (hcuts.flatten text) (hcuts.ne_nil text) valid
  have hle := hspans.length_le
  rw [hgroups, hcuts.flatten] at hle
  rwa [units_eq_flatMap]

theorem segment_ne_nil (hseg : seg ∈ segmentWithMarkers d valid text) : seg.segment ≠ [] := by
  obtain ⟨groups, hgroups, hspans⟩ := spans_of_flatten (hcuts.flatten text) (hcuts.ne_nil text) valid
  exact hspans.ne_nil (hgroups ▸ hcuts.ne_nil text) hseg

theorem segments_ne_nil (htext : text ≠ []) :
    segmentWithMarkers d valid text ≠ [] := by
  obtain ⟨groups, hgroups, hspans⟩ := spans_of_flatten (hcuts.flatten text) (hcuts.ne_nil text) valid
  intro hnil
  rw [hnil] at hspans
  cases hspans
  apply htext
  rw [← hcuts.flatten text, ← hgroups]
  rfl

end

end KnightCode.Editor
