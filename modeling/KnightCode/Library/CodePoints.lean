import KnightCode.Library.Utf8

/-!
# Text in code point order

`points` reads a text's code points, as a UTF-8 reader sees it. On well-formed texts it turns
concatenation, prefixes and the order of code units with surrogates ranked last into those of
lists of code points, and the texts with a prefix into a half-open range of that order.
-/

namespace Utf8

open List Option
open JsonText (isLead isTrail)

def points : Text → List ℕ
  | [] => []
  | [c] => [lone c]
  | c :: d :: rest =>
    if isLead c && isTrail d then pair c d :: points rest else lone c :: points (d :: rest)

def ofPoints (l : List ℕ) : Text := l.flatMap units

/-- Lone halves of surrogate pairs replaced by U+FFFD. -/
def toWellFormed (t : Text) : Text := ofPoints (points t)

@[simp] theorem points_nil : points [] = [] := rfl

@[simp] theorem ofPoints_nil : ofPoints [] = [] := rfl

theorem ofPoints_cons (n : ℕ) (l : List ℕ) : ofPoints (n :: l) = units n ++ ofPoints l :=
  flatMap_cons

theorem points_units {n : ℕ} (h : IsScalar n) (t : Text) :
    points (units n ++ t) = n :: points t := by
  unfold units
  split_ifs with hn
  · obtain ⟨hsurrogate, hlone⟩ := lone_ofNat h hn
    cases t with
    | nil =>
      have hone : points [.ofNat n] = [lone (.ofNat n)] := by rw [points]
      rw [append_nil, hone, hlone, points]
    | cons d rest =>
      rw [singleton_append, points, if_neg (not_pair hsurrogate), hlone]
  · obtain ⟨hlead, hpair⟩ := pair_ofNat h hn
    rw [cons_append, singleton_append, points, if_pos hlead, hpair]

variable {t : Text}

theorem points_append (h : WellFormed t) (u : Text) : points (t ++ u) = points t ++ points u := by
  induction h using WellFormed.induction with
  | nil => rfl
  | cons n t hn ht ih => rw [append_assoc, points_units hn, points_units hn, ih,
      cons_append]

theorem ofPoints_points (h : WellFormed t) : ofPoints (points t) = t := by
  induction h using WellFormed.induction with
  | nil => rfl
  | cons n t hn ht ih => rw [points_units hn, ofPoints_cons, ih]

theorem isScalar_points (t : Text) : ∀ n ∈ points t, IsScalar n := by
  have hlone : ∀ c, IsScalar (lone c) := by
    intro c
    cases hc : isSurrogate c with
    | false => exact (isScalar_lone hc).1
    | true =>
      have hlone : lone c = 0xFFFD := by simp [lone, hc, replacement]
      rw [hlone]
      unfold IsScalar
      omega
  fun_induction points t with
  | case1 => exact fun n hn => absurd hn not_mem_nil
  | case2 c => exact fun n hn => mem_singleton.mp hn ▸ hlone c
  | case3 c d rest hcd ih =>
    obtain ⟨hc, hd⟩ := Bool.and_eq_true_iff.mp hcd
    intro n hn
    obtain hn | hn := mem_cons.mp hn
    · rw [hn]
      exact (isScalar_pair hc hd).1
    · exact ih n hn
  | case4 c d rest hcd ih =>
    intro n hn
    obtain hn | hn := mem_cons.mp hn
    · rw [hn]
      exact hlone c
    · exact ih n hn

theorem points_ofPoints {l : List ℕ} (h : ∀ n ∈ l, IsScalar n) :
    WellFormed (ofPoints l) ∧ points (ofPoints l) = l := by
  induction l with
  | nil => exact ⟨trivial, rfl⟩
  | cons n l ih =>
    have hn := h n mem_cons_self
    obtain ⟨hwell, hpoints⟩ := ih fun m hm => h m (mem_cons_of_mem _ hm)
    rw [ofPoints_cons]
    exact ⟨wellFormed_units hn hwell, by rw [points_units hn, hpoints]⟩

theorem wellFormed_toWellFormed (t : Text) : WellFormed (toWellFormed t) :=
  (points_ofPoints (isScalar_points t)).1

/-! ### Prefixes -/

theorem prefix_points {u : Text} (ht : WellFormed t) (hu : WellFormed u) :
    t <+: u ↔ points t <+: points u := by
  refine ⟨?_, ?_⟩
  · rintro ⟨rest, rfl⟩
    rw [points_append ht]
    exact prefix_append _ _
  · rintro ⟨rest, hrest⟩
    refine ⟨ofPoints rest, ?_⟩
    rw [← ofPoints_points hu, ← hrest]
    conv_lhs => rw [← ofPoints_points ht]
    exact flatMap_append.symm

theorem wellFormed_drop {u : Text} (ht : WellFormed t) (hu : WellFormed u) (h : t <+: u) :
    WellFormed (u.drop t.length) ∧
      points (u.drop t.length) = (points u).drop (points t).length := by
  obtain ⟨rest, hrest⟩ := (prefix_points ht hu).mp h
  have hscalar : ∀ n ∈ rest, IsScalar n := fun n hn =>
    isScalar_points u n (hrest ▸ mem_append_right _ hn)
  obtain ⟨hwell, hpoints⟩ := points_ofPoints hscalar
  have hu' : u = t ++ ofPoints rest := by
    rw [← ofPoints_points hu, ← hrest]
    conv_rhs => rw [← ofPoints_points ht]
    exact flatMap_append
  rw [hu', drop_left, ← hu', ← hrest, drop_left]
  exact ⟨hwell, hpoints⟩

/-! ### Order -/

/-- Code points one by one, a proper prefix first. -/
def comparePoints : List ℕ → List ℕ → Ordering
  | [], [] => .eq
  | [], _ :: _ => .lt
  | _ :: _, [] => .gt
  | n :: a, m :: b => if n < m then .lt else if m < n then .gt else comparePoints a b

theorem comparePoints_self (a : List ℕ) : comparePoints a a = .eq := by
  induction a with
  | nil => rfl
  | cons n a ih => simp [comparePoints, ih]

theorem comparePoints_append (a b c : List ℕ) :
    comparePoints (a ++ b) (a ++ c) = comparePoints b c := by
  induction a with
  | nil => rfl
  | cons n a ih => simp [comparePoints, ih]

theorem eq_of_comparePoints {a b : List ℕ} (h : comparePoints a b = .eq) : a = b := by
  induction a generalizing b with
  | nil =>
    cases b with
    | nil => rfl
    | cons m b => cases h
  | cons n a ih =>
    cases b with
    | nil => cases h
    | cons m b =>
      unfold comparePoints at h
      split_ifs at h with hlt hgt
      rw [ih h, le_antisymm (not_lt.mp hgt) (not_lt.mp hlt)]

def codePointRank (unit : UInt16) : ℤ :=
  if unit.toNat < 0xD800 then unit.toNat
  else if unit.toNat < 0xE000 then unit.toNat + 0x2000
  else unit.toNat - 0x800

/-- Negative, zero or positive. -/
def compareText : Text → Text → ℤ
  | c :: a, d :: b => if c = d then compareText a b else codePointRank c - codePointRank d
  | a, b => (a.length : ℤ) - b.length

theorem compareText_append (a b c : Text) : compareText (a ++ b) (a ++ c) = compareText b c := by
  induction a with
  | nil => rfl
  | cons d a ih => rw [cons_append, cons_append, compareText, if_pos rfl, ih]

theorem compareText_units {n m : ℕ} (hn : IsScalar n) (hm : IsScalar m) (h : n < m) (t u : Text) :
    compareText (units n ++ t) (units m ++ u) < 0 ∧
      0 < compareText (units m ++ u) (units n ++ t) := by
  have hscalar := hn
  have hscalar' := hm
  unfold IsScalar at hscalar hscalar'
  have hrank : ∀ {k : ℕ}, k < 0x10000 → (k < 0xD800 ∨ 0xDFFF < k) →
      codePointRank (.ofNat k) = if k < 0xD800 then (k : ℤ) else k - 0x800 := by
    intro k hk hplain
    rw [codePointRank, UInt16.toNat_ofNat', Nat.mod_eq_of_lt hk]
    split_ifs <;> omega
  have hlead : ∀ {k : ℕ}, IsScalar k → ¬k < 0x10000 →
      codePointRank (lead k) = 0xF800 + ((k - 0x10000) / 0x400 : ℕ) := by
    intro k hk hbig
    obtain ⟨hl, -⟩ := toNat_pair hk hbig
    unfold IsScalar at hk
    rw [codePointRank, hl, if_neg (by omega), if_pos (by omega)]
    push_cast
    ring
  have htrail : ∀ {k : ℕ}, IsScalar k → ¬k < 0x10000 →
      codePointRank (trail k) = 0xFC00 + ((k - 0x10000) % 0x400 : ℕ) := by
    intro k hk hbig
    obtain ⟨-, hl⟩ := toNat_pair hk hbig
    have hmod := Nat.mod_lt (k - 0x10000) (show 0 < 0x400 by decide)
    rw [codePointRank, hl, if_neg (by omega), if_pos (by omega)]
    push_cast
    ring
  have hsplit : ∀ {c d : UInt16} (a b : Text), codePointRank c < codePointRank d →
      compareText (c :: a) (d :: b) < 0 ∧ 0 < compareText (d :: b) (c :: a) := by
    intro c d a b hlt
    have hne : c ≠ d := fun heq => absurd hlt (by rw [heq]; exact lt_irrefl _)
    rw [compareText, if_neg hne, compareText, if_neg (Ne.symm hne)]
    omega
  by_cases hn' : n < 0x10000
  · by_cases hm' : m < 0x10000
    · rw [units, if_pos hn', units, if_pos hm']
      refine hsplit _ _ ?_
      rw [hrank hn' (by omega), hrank hm' (by omega)]
      split_ifs <;> omega
    · rw [units, if_pos hn', units, if_neg hm']
      refine hsplit _ _ ?_
      rw [hrank hn' (by omega), hlead hm hm']
      split_ifs <;> omega
  · have hm' : ¬m < 0x10000 := by omega
    rw [units, if_neg hn', units, if_neg hm']
    by_cases hhigh : (n - 0x10000) / 0x400 = (m - 0x10000) / 0x400
    · have heq : lead n = lead m := by rw [lead, lead, hhigh]
      have hsame : ∀ (c : UInt16) (a b : Text), compareText (c :: a) (c :: b) = compareText a b :=
        fun c a b => by rw [compareText, if_pos rfl]
      simp only [cons_append, nil_append, heq]
      rw [hsame, hsame]
      refine hsplit _ _ ?_
      rw [htrail hn hn', htrail hm hm']
      omega
    · refine hsplit _ _ ?_
      rw [hlead hn hn', hlead hm hm']
      omega

theorem compareText_points {u : Text} (ht : WellFormed t) (hu : WellFormed u) :
    (compareText t u < 0 ↔ comparePoints (points t) (points u) = .lt) ∧
      (0 < compareText t u ↔ comparePoints (points t) (points u) = .gt) := by
  induction ht using WellFormed.induction generalizing u with
  | nil =>
    cases hu using WellFormed.induction with
    | nil => simp [compareText, comparePoints]
    | cons m u hm hu =>
      have hpos := length_pos_iff.mpr (units_ne_nil m)
      rw [points_units hm]
      simp only [compareText, points_nil, comparePoints, length_nil, length_append]
      constructor
      · simp only [iff_true]
        push_cast
        omega
      · simp only [reduceCtorEq, iff_false]
        push_cast
        omega
  | cons n t hn ht ih =>
    cases hu using WellFormed.induction with
    | nil =>
      have hpos := length_pos_iff.mpr (units_ne_nil n)
      have hlength : compareText (units n ++ t) [] = ((units n ++ t).length : ℤ) := by
        cases hcons : units n ++ t <;> simp [compareText]
      rw [points_units hn, hlength, length_append]
      simp only [points_nil, comparePoints]
      constructor
      · simp only [reduceCtorEq, iff_false]
        push_cast
        omega
      · simp only [iff_true]
        push_cast
        omega
    | cons m u hm hu =>
      rw [points_units hn, points_units hm, comparePoints]
      split_ifs with hlt hgt
      · obtain ⟨hneg, hpos⟩ := compareText_units hn hm hlt t u
        exact ⟨iff_of_true hneg rfl, iff_of_false (not_lt.mpr hneg.le) (by decide)⟩
      · obtain ⟨hneg, hpos⟩ := compareText_units hm hn hgt u t
        exact ⟨iff_of_false (not_lt.mpr hpos.le) (by decide), iff_of_true hpos rfl⟩
      · obtain rfl : n = m := le_antisymm (not_lt.mp hgt) (not_lt.mp hlt)
        rw [compareText_append]
        exact ih hu

/-! ### The texts with a prefix as a range -/

/-- The code point after one, past the surrogates. -/
def nextPoint (n : ℕ) : ℕ := if n = 0xD7FF then 0xE000 else n + 1

def upperBoundFrom : List ℕ → Option (List ℕ)
  | [] => none
  | last :: rest =>
    if last = 0x10FFFF then upperBoundFrom rest else some (rest.reverse ++ [nextPoint last])

/-- The smallest text above every text with a prefix; `none` when there is none. -/
def prefixUpperBound (text : Text) : Option Text :=
  (upperBoundFrom (points text).reverse).map ofPoints

theorem comparePoints_between (a b p v : List ℕ) :
    (comparePoints v (p ++ a) ≠ .lt ∧ comparePoints v (p ++ b) = .lt) ↔
      ∃ r, v = p ++ r ∧ comparePoints r a ≠ .lt ∧ comparePoints r b = .lt := by
  induction p generalizing v with
  | nil => simp
  | cons n p ih =>
    cases v with
    | nil => simp [comparePoints]
    | cons m v =>
      simp only [cons_append, comparePoints, cons.injEq]
      split_ifs with hlt hgt
      · simp [ne_of_lt hlt]
      · simp [ne_of_gt hgt]
      · have heq : m = n := le_antisymm (not_lt.mp hgt) (not_lt.mp hlt)
        simp [heq, ih v]

theorem comparePoints_shorter {v p r : List ℕ} (h : comparePoints v (p ++ r) ≠ .lt) :
    comparePoints v p ≠ .lt := by
  induction p generalizing v with
  | nil => cases v <;> simp [comparePoints]
  | cons n p ih =>
    cases v with
    | nil => exact absurd rfl h
    | cons m v =>
      simp only [cons_append, comparePoints] at h ⊢
      split_ifs at h ⊢ with hlt hgt
      · exact h
      · exact h
      · exact ih h

/-- A list of code points with a start is not below the start followed by the last code point
only if that follows in it. -/
theorem isPrefix_concat_last {p v : List ℕ} (hv : ∀ n ∈ v, IsScalar n) (h : p <+: v) :
    comparePoints v (p ++ [0x10FFFF]) ≠ .lt ↔ p ++ [0x10FFFF] <+: v := by
  obtain ⟨r, rfl⟩ := h
  rw [comparePoints_append, prefix_append_right_inj]
  cases r with
  | nil => simp [comparePoints]
  | cons m r =>
    have hm := hv m (mem_append_right _ mem_cons_self)
    unfold IsScalar at hm
    have hle : m ≤ 0x10FFFF := by omega
    rw [cons_prefix_cons]
    simp only [comparePoints, nil_prefix, and_true]
    split_ifs with hlt hgt
    · exact iff_of_false (by simp) (by omega)
    · omega
    · refine iff_of_true ?_ (by omega)
      cases r <;> simp [comparePoints]

theorem between_next (n : ℕ) {r : List ℕ} (hr : ∀ m ∈ r, IsScalar m) :
    (comparePoints r [n] ≠ .lt ∧ comparePoints r [nextPoint n] = .lt) ↔ [n] <+: r := by
  cases r with
  | nil => simp [comparePoints]
  | cons m r =>
    have hm := hr m mem_cons_self
    unfold IsScalar at hm
    have hnext : m < nextPoint n ↔ m ≤ n := by
      unfold nextPoint
      split_ifs <;> omega
    have hequal : comparePoints (m :: r) [n] ≠ .lt ↔ n ≤ m := by
      simp only [comparePoints]
      split_ifs with hlt hgt
      · exact iff_of_false (by simp) (by omega)
      · exact iff_of_true (by simp) (by omega)
      · refine iff_of_true ?_ (by omega)
        cases r <;> simp [comparePoints]
    have hbelow : comparePoints (m :: r) [nextPoint n] = .lt ↔ m ≤ n := by
      rw [← hnext]
      simp only [comparePoints]
      split_ifs with hlt hgt
      · exact iff_of_true rfl hlt
      · exact iff_of_false (by simp) hlt
      · refine iff_of_false ?_ hlt
        cases r <;> simp [comparePoints]
    rw [hequal, hbelow, cons_prefix_cons]
    constructor
    · exact fun h => ⟨le_antisymm h.1 h.2, nil_prefix⟩
    · exact fun h => ⟨h.1.le, h.1.ge⟩

theorem isPrefix_range (q : List ℕ) {v : List ℕ} (hv : ∀ n ∈ v, IsScalar n) :
    (∀ upper, upperBoundFrom q = some upper →
      ((comparePoints v q.reverse ≠ .lt ∧ comparePoints v upper = .lt) ↔ q.reverse <+: v)) ∧
    (upperBoundFrom q = none → (comparePoints v q.reverse ≠ .lt ↔ q.reverse <+: v)) := by
  induction q with
  | nil =>
    refine ⟨fun _ h => (by cases h), fun _ => iff_of_true ?_ nil_prefix⟩
    cases v <;> simp [comparePoints]
  | cons last rest ih =>
    obtain ⟨hsome, hnone⟩ := ih
    rw [upperBoundFrom, reverse_cons]
    by_cases hlast : last = 0x10FFFF
    · subst hlast
      rw [if_pos rfl]
      refine ⟨fun upper hupper => ⟨fun h => ?_, fun h => ?_⟩,
        fun hupper => ⟨fun h => ?_, fun h => ?_⟩⟩
      · have hstart := (hsome upper hupper).mp ⟨comparePoints_shorter h.1, h.2⟩
        exact (isPrefix_concat_last hv hstart).mp h.1
      · have hstart : rest.reverse <+: v := (prefix_append _ _).trans h
        exact ⟨(isPrefix_concat_last hv hstart).mpr h, ((hsome upper hupper).mpr hstart).2⟩
      · have hstart := (hnone hupper).mp (comparePoints_shorter h)
        exact (isPrefix_concat_last hv hstart).mp h
      · have hstart : rest.reverse <+: v := (prefix_append _ _).trans h
        exact (isPrefix_concat_last hv hstart).mpr h
    · rw [if_neg hlast]
      refine ⟨fun upper hupper => ?_, fun h => (by cases h)⟩
      cases hupper
      rw [comparePoints_between]
      constructor
      · rintro ⟨r, rfl, hr⟩
        rw [prefix_append_right_inj]
        exact (between_next last fun m hm => hv m (mem_append_right _ hm)).mp hr
      · intro h
        obtain ⟨r, rfl⟩ := (prefix_append _ _).trans h
        rw [prefix_append_right_inj] at h
        exact ⟨r, rfl, (between_next last fun m hm => hv m (mem_append_right _ hm)).mpr h⟩

theorem isScalar_upperBound {q upper : List ℕ} (hq : ∀ n ∈ q, IsScalar n)
    (h : upperBoundFrom q = some upper) : ∀ n ∈ upper, IsScalar n := by
  induction q with
  | nil => cases h
  | cons last rest ih =>
    have hlast := hq last mem_cons_self
    have hrest := fun n hn => hq n (mem_cons_of_mem _ hn)
    unfold upperBoundFrom at h
    split_ifs at h with hmax
    · exact ih hrest h
    · cases h
      intro n hn
      rw [mem_append, mem_reverse, mem_singleton] at hn
      obtain hn | rfl := hn
      · exact hrest n hn
      · unfold IsScalar nextPoint at *
        split_ifs <;> omega

theorem isPrefix_iff {u : Text} (ht : WellFormed t) (hu : WellFormed u) :
    (∀ upper, prefixUpperBound t = some upper → ((comparePoints (points u) (points t) ≠ .lt ∧
      comparePoints (points u) (points upper) = .lt) ↔ t <+: u)) ∧
    (prefixUpperBound t = none → (comparePoints (points u) (points t) ≠ .lt ↔ t <+: u)) := by
  obtain ⟨hsome, hnone⟩ := isPrefix_range (points t).reverse (isScalar_points u)
  rw [reverse_reverse, ← prefix_points ht hu] at hsome hnone
  refine ⟨fun upper hupper => ?_, fun hupper => ?_⟩
  · obtain ⟨bound, hbound, rfl⟩ := map_eq_some_iff.mp hupper
    have hscalar := isScalar_upperBound
      (fun n hn => isScalar_points t n (mem_reverse.mp hn)) hbound
    rw [(points_ofPoints hscalar).2]
    exact hsome bound hbound
  · exact hnone (map_eq_none_iff.mp hupper)

end Utf8
