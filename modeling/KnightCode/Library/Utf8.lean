import KnightCode.Library.JsonText

/-!
# Text as UTF-8

`encode` writes the code points of a text; half of a surrogate pair on its own becomes U+FFFD. The
decoder takes one byte at a time. A byte that cannot continue the character it is in ends that
character with U+FFFD and is read again as the first of another.
-/

namespace Utf8

open List
variable {n : ℕ} {t : Text}

open JsonText (isLead isTrail isLead_iff isTrail_iff)

/-- U+FFFD -/
def replacement : UInt16 := 0xFFFD

/-- The bytes of a code point. -/
def bytes (n : ℕ) : List UInt8 :=
  if n < 0x80 then [.ofNat n]
  else if n < 0x800 then [.ofNat (0xC0 + n / 0x40), .ofNat (0x80 + n % 0x40)]
  else if n < 0x10000 then
    [.ofNat (0xE0 + n / 0x1000), .ofNat (0x80 + n / 0x40 % 0x40), .ofNat (0x80 + n % 0x40)]
  else
    [.ofNat (0xF0 + n / 0x40000), .ofNat (0x80 + n / 0x1000 % 0x40),
      .ofNat (0x80 + n / 0x40 % 0x40), .ofNat (0x80 + n % 0x40)]

def lead (n : ℕ) : UInt16 := .ofNat (0xD800 + (n - 0x10000) / 0x400)

def trail (n : ℕ) : UInt16 := .ofNat (0xDC00 + (n - 0x10000) % 0x400)

/-- The code units of a code point. -/
def units (n : ℕ) : Text :=
  if n < 0x10000 then [.ofNat n] else [lead n, trail n]

/-- The code point of a surrogate pair. -/
def pair (c d : UInt16) : ℕ :=
  0x10000 + (c.toNat - 0xD800) * 0x400 + (d.toNat - 0xDC00)

def isSurrogate (c : UInt16) : Bool :=
  isLead c || isTrail c

/-- The code point of a code unit that is no half of a pair. -/
def lone (c : UInt16) : ℕ :=
  if isSurrogate c then replacement.toNat else c.toNat

def encode : Text → List UInt8
  | [] => []
  | [c] => bytes (lone c)
  | c :: d :: rest =>
    if isLead c && isTrail d then bytes (pair c d) ++ encode rest
    else bytes (lone c) ++ encode (d :: rest)

/-- How many bytes the character still needs, what the next one may be, and the code point so
far. -/
structure Decoder where
  needed : ℕ
  low : ℕ
  high : ℕ
  point : ℕ

def initial : Decoder := ⟨0, 0x80, 0xBF, 0⟩

/-- The first byte of a character. -/
def first (b : UInt8) : Decoder × Text :=
  if b.toNat < 0x80 then (initial, [.ofNat b.toNat])
  else if b.toNat < 0xC2 then (initial, [replacement])
  else if b.toNat < 0xE0 then (⟨1, 0x80, 0xBF, b.toNat - 0xC0⟩, [])
  else if b.toNat < 0xF0 then
    (⟨2, if b.toNat = 0xE0 then 0xA0 else 0x80, if b.toNat = 0xED then 0x9F else 0xBF,
      b.toNat - 0xE0⟩, [])
  else if b.toNat < 0xF5 then
    (⟨3, if b.toNat = 0xF0 then 0x90 else 0x80, if b.toNat = 0xF4 then 0x8F else 0xBF,
      b.toNat - 0xF0⟩, [])
  else (initial, [replacement])

def step (d : Decoder) (b : UInt8) : Decoder × Text :=
  if d.needed = 0 then first b
  else if b.toNat < d.low ∨ d.high < b.toNat then ((first b).1, replacement :: (first b).2)
  else if d.needed = 1 then (initial, units (d.point * 0x40 + (b.toNat - 0x80)))
  else (⟨d.needed - 1, 0x80, 0xBF, d.point * 0x40 + (b.toNat - 0x80)⟩, [])

def decodeFrom : Decoder → List UInt8 → Text
  | d, [] => if d.needed = 0 then [] else [replacement]
  | d, b :: rest => (step d b).2 ++ decodeFrom (step d b).1 rest

def decode (bytes : List UInt8) : Text :=
  decodeFrom initial bytes

/-! ### One code point -/

/-- A code point that is no half of a surrogate pair. -/
def IsScalar (n : ℕ) : Prop :=
  n < 0xD800 ∨ 0xDFFF < n ∧ n < 0x110000

theorem toNat_ofNat (h : n < 256) : (UInt8.ofNat n).toNat = n := by
  rw [UInt8.toNat_ofNat', Nat.mod_eq_of_lt h]

theorem first_ascii (h : n < 0x80) : first (.ofNat n) = (initial, [.ofNat n]) := by
  unfold first
  rw [toNat_ofNat (by omega), if_pos h]

theorem first_two (h : 0x80 ≤ n) (h' : n < 0x800) :
    first (.ofNat (0xC0 + n / 0x40)) = (⟨1, 0x80, 0xBF, n / 0x40⟩, []) := by
  unfold first
  rw [toNat_ofNat (by omega), if_neg (by omega), if_neg (by omega), if_pos (by omega),
    Nat.add_sub_cancel_left]

theorem first_three (h' : n < 0x10000) :
    first (.ofNat (0xE0 + n / 0x1000)) =
      (⟨2, if n / 0x1000 = 0 then 0xA0 else 0x80, if n / 0x1000 = 13 then 0x9F else 0xBF,
        n / 0x1000⟩, []) := by
  have hlow : (0xE0 + n / 0x1000 = 0xE0) = (n / 0x1000 = 0) := by
    rw [eq_iff_iff]
    omega
  have hhigh : (0xE0 + n / 0x1000 = 0xED) = (n / 0x1000 = 13) := by
    rw [eq_iff_iff]
    omega
  unfold first
  rw [toNat_ofNat (by omega), if_neg (by omega), if_neg (by omega), if_neg (by omega),
    if_pos (by omega), Nat.add_sub_cancel_left]
  simp only [hlow, hhigh]

theorem first_four (h' : n < 0x110000) :
    first (.ofNat (0xF0 + n / 0x40000)) =
      (⟨3, if n / 0x40000 = 0 then 0x90 else 0x80, if n / 0x40000 = 4 then 0x8F else 0xBF,
        n / 0x40000⟩, []) := by
  have hlow : (0xF0 + n / 0x40000 = 0xF0) = (n / 0x40000 = 0) := by
    rw [eq_iff_iff]
    omega
  have hhigh : (0xF0 + n / 0x40000 = 0xF4) = (n / 0x40000 = 4) := by
    rw [eq_iff_iff]
    omega
  unfold first
  rw [toNat_ofNat (by omega), if_neg (by omega), if_neg (by omega), if_neg (by omega),
    if_neg (by omega), if_pos (by omega), Nat.add_sub_cancel_left]
  simp only [hlow, hhigh]

theorem step_more {needed low high point m : ℕ} (hlow : low ≤ 0x80 + m) (hhigh : 0x80 + m ≤ high)
    (hm : m < 0x40) :
    step ⟨needed + 2, low, high, point⟩ (.ofNat (0x80 + m)) =
      (⟨needed + 1, 0x80, 0xBF, point * 0x40 + m⟩, []) := by
  have hrange : ¬(0x80 + m < low ∨ high < 0x80 + m) := by omega
  unfold step
  dsimp only
  rw [if_neg (Nat.succ_ne_zero _), toNat_ofNat (by omega), if_neg hrange, if_neg (by omega),
    Nat.add_sub_cancel_left]
  rfl

theorem step_last {low high point m : ℕ} (hlow : low ≤ 0x80 + m) (hhigh : 0x80 + m ≤ high)
    (hm : m < 0x40) :
    step ⟨1, low, high, point⟩ (.ofNat (0x80 + m)) = (initial, units (point * 0x40 + m)) := by
  have hrange : ¬(0x80 + m < low ∨ high < 0x80 + m) := by omega
  unfold step
  dsimp only
  rw [if_neg Nat.one_ne_zero, toNat_ofNat (by omega), if_neg hrange, if_pos rfl,
    Nat.add_sub_cancel_left]

theorem decodeFrom_cons (d : Decoder) (b : UInt8) (rest : List UInt8) :
    decodeFrom d (b :: rest) = (step d b).2 ++ decodeFrom (step d b).1 rest := rfl

theorem step_initial (b : UInt8) : step initial b = first b := rfl

theorem decode_bytes (h : IsScalar n) (rest : List UInt8) :
    decode (bytes n ++ rest) = units n ++ decode rest := by
  have hlt : n < 0x110000 := by
    unfold IsScalar at h
    omega
  unfold decode bytes
  by_cases h₁ : n < 0x80
  · rw [if_pos h₁, singleton_append, decodeFrom_cons, step_initial, first_ascii h₁, units,
      if_pos (by omega)]
  rw [if_neg h₁]
  by_cases h₂ : n < 0x800
  · rw [if_pos h₂, cons_append, decodeFrom_cons, step_initial, first_two (by omega) h₂,
      singleton_append, decodeFrom_cons, step_last (by omega) (by omega) (by omega),
      nil_append]
    rw [show n / 0x40 * 0x40 + n % 0x40 = n by omega]
  rw [if_neg h₂]
  by_cases h₃ : n < 0x10000
  · rw [if_pos h₃, cons_append, decodeFrom_cons, step_initial, first_three h₃,
      cons_append, decodeFrom_cons, step_more ?_ ?_ (by omega), singleton_append,
      decodeFrom_cons, step_last (by omega) (by omega) (by omega)]
    · rw [show (n / 0x1000 * 0x40 + n / 0x40 % 0x40) * 0x40 + n % 0x40 = n by omega]
      rfl
    · split <;> omega
    · unfold IsScalar at h
      split <;> omega
  · rw [if_neg h₃, cons_append, decodeFrom_cons, step_initial, first_four hlt,
      cons_append, decodeFrom_cons, step_more ?_ ?_ (by omega), cons_append,
      decodeFrom_cons, step_more (by omega) (by omega) (by omega), singleton_append,
      decodeFrom_cons, step_last (by omega) (by omega) (by omega)]
    · rw [show ((n / 0x40000 * 0x40 + n / 0x1000 % 0x40) * 0x40 + n / 0x40 % 0x40) * 0x40 +
        n % 0x40 = n by omega]
      rfl
    · split <;> omega
    · split <;> omega

theorem decode_cut {k : ℕ} (h : IsScalar n) (hk : 0 < k) (hlt : k < (bytes n).length) :
    decode ((bytes n).take k) = [replacement] := by
  have hbound : n < 0x110000 := by
    unfold IsScalar at h
    omega
  unfold decode
  unfold bytes at hlt ⊢
  by_cases h₁ : n < 0x80
  · rw [if_pos h₁, length_singleton] at hlt
    omega
  rw [if_neg h₁] at hlt ⊢
  by_cases h₂ : n < 0x800
  · rw [if_pos h₂] at hlt ⊢
    have hone : k = 1 := by
      simp only [length_cons, length_nil] at hlt
      omega
    rw [hone, take_succ_cons, take_zero, decodeFrom_cons, step_initial,
      first_two (by omega) h₂]
    rfl
  rw [if_neg h₂] at hlt ⊢
  by_cases h₃ : n < 0x10000
  · rw [if_pos h₃] at hlt ⊢
    have hcases : k = 1 ∨ k = 2 := by
      simp only [length_cons, length_nil] at hlt
      omega
    rcases hcases with rfl | rfl
    · rw [take_succ_cons, take_zero, decodeFrom_cons, step_initial, first_three h₃]
      rfl
    · rw [take_succ_cons, take_succ_cons, take_zero, decodeFrom_cons, step_initial,
        first_three h₃, decodeFrom_cons, step_more ?_ ?_ (by omega)]
      · rfl
      · split <;> omega
      · unfold IsScalar at h
        split <;> omega
  · rw [if_neg h₃] at hlt ⊢
    have hcases : k = 1 ∨ k = 2 ∨ k = 3 := by
      simp only [length_cons, length_nil] at hlt
      omega
    rcases hcases with rfl | rfl | rfl
    · rw [take_succ_cons, take_zero, decodeFrom_cons, step_initial, first_four hbound]
      rfl
    · rw [take_succ_cons, take_succ_cons, take_zero, decodeFrom_cons, step_initial,
        first_four hbound, decodeFrom_cons, step_more ?_ ?_ (by omega)]
      · rfl
      · split <;> omega
      · split <;> omega
    · rw [take_succ_cons, take_succ_cons, take_succ_cons, take_zero,
        decodeFrom_cons, step_initial, first_four hbound, decodeFrom_cons,
        step_more ?_ ?_ (by omega), decodeFrom_cons, step_more (by omega) (by omega) (by omega)]
      · rfl
      · split <;> omega
      · split <;> omega

/-! ### Whole texts -/

/-- Every half of a surrogate pair stands in a pair. -/
def WellFormed : Text → Prop
  | [] => True
  | [c] => isSurrogate c = false
  | c :: d :: rest =>
    if isLead c && isTrail d then WellFormed rest
    else isSurrogate c = false ∧ WellFormed (d :: rest)

theorem isSurrogate_eq_false {c : UInt16} :
    isSurrogate c = false ↔ c.toNat < 0xD800 ∨ 0xDFFF < c.toNat := by
  rw [isSurrogate, Bool.eq_false_iff, Ne, Bool.or_eq_true, isLead_iff, isTrail_iff]
  omega

theorem not_pair {c d : UInt16} (h : isSurrogate c = false) : ¬(isLead c && isTrail d) = true := by
  simp [(Bool.or_eq_false_iff.mp h).1]

theorem isScalar_lone {c : UInt16} (h : isSurrogate c = false) :
    IsScalar (lone c) ∧ units (lone c) = [c] := by
  have hlt := c.toNat_lt
  have hlone : lone c = c.toNat := by
    unfold lone
    rw [h]
    rfl
  refine ⟨?_, ?_⟩
  · rw [hlone]
    rw [isSurrogate_eq_false] at h
    unfold IsScalar
    omega
  · rw [hlone, units, if_pos hlt, UInt16.ofNat_toNat]

theorem isScalar_pair {c d : UInt16} (h : isLead c = true) (h' : isTrail d = true) :
    IsScalar (pair c d) ∧ units (pair c d) = [c, d] := by
  rw [isLead_iff] at h
  rw [isTrail_iff] at h'
  refine ⟨?_, ?_⟩
  · unfold IsScalar pair
    omega
  · unfold units pair lead trail
    rw [if_neg (by omega)]
    have hc : 0xD800 + (0x10000 + (c.toNat - 0xD800) * 0x400 + (d.toNat - 0xDC00) - 0x10000) /
        0x400 = c.toNat := by omega
    have hd : 0xDC00 + (0x10000 + (c.toNat - 0xD800) * 0x400 + (d.toNat - 0xDC00) - 0x10000) %
        0x400 = d.toNat := by omega
    rw [hc, hd, UInt16.ofNat_toNat, UInt16.ofNat_toNat]

theorem wellFormed_of_forall (h : ∀ c ∈ t, isSurrogate c = false) : WellFormed t := by
  induction t with
  | nil => trivial
  | cons c t ih =>
    have hc := h c mem_cons_self
    have ht := ih fun d hd => h d (mem_cons_of_mem c hd)
    cases t with
    | nil => exact hc
    | cons d rest =>
      rw [WellFormed, if_neg (not_pair hc)]
      exact ⟨hc, ht⟩

theorem wellFormed_cases (h : WellFormed t) (hne : t ≠ []) :
    ∃ n rest, IsScalar n ∧ WellFormed rest ∧ t = units n ++ rest := by
  cases t with
  | nil => exact absurd rfl hne
  | cons c t =>
    cases t with
    | nil =>
      obtain ⟨hscalar, hunits⟩ := isScalar_lone h
      exact ⟨lone c, [], hscalar, trivial, by rw [hunits]; rfl⟩
    | cons d rest =>
      unfold WellFormed at h
      by_cases hcd : (isLead c && isTrail d) = true
      · rw [if_pos hcd] at h
        obtain ⟨hc, hd⟩ := Bool.and_eq_true_iff.mp hcd
        obtain ⟨hscalar, hunits⟩ := isScalar_pair hc hd
        exact ⟨pair c d, rest, hscalar, h, by rw [hunits]; rfl⟩
      · rw [if_neg hcd] at h
        obtain ⟨hscalar, hunits⟩ := isScalar_lone h.1
        exact ⟨lone c, d :: rest, hscalar, h.2, by rw [hunits]; rfl⟩

theorem units_ne_nil (n : ℕ) : units n ≠ [] := by
  unfold units
  split <;> exact cons_ne_nil _ _

theorem bytes_ne_nil (n : ℕ) : bytes n ≠ [] := by
  unfold bytes
  split_ifs <;> exact cons_ne_nil _ _

theorem lone_ofNat (h : IsScalar n) (hn : n < 0x10000) :
    isSurrogate (.ofNat n) = false ∧ lone (.ofNat n) = n := by
  have hnat : (UInt16.ofNat n).toNat = n := by rw [UInt16.toNat_ofNat', Nat.mod_eq_of_lt hn]
  have hsurrogate : isSurrogate (.ofNat n) = false := by
    rw [isSurrogate_eq_false]
    unfold IsScalar at h
    omega
  refine ⟨hsurrogate, ?_⟩
  unfold lone
  rw [hsurrogate, hnat]
  rfl

theorem toNat_pair (h : IsScalar n) (hn : ¬n < 0x10000) :
    (lead n).toNat = 0xD800 + (n - 0x10000) / 0x400 ∧
      (trail n).toNat = 0xDC00 + (n - 0x10000) % 0x400 := by
  have hn' : n < 0x110000 := by
    unfold IsScalar at h
    omega
  unfold lead trail
  rw [UInt16.toNat_ofNat', UInt16.toNat_ofNat', Nat.mod_eq_of_lt, Nat.mod_eq_of_lt]
  · exact ⟨rfl, rfl⟩
  · omega
  · omega

theorem pair_ofNat (h : IsScalar n) (hn : ¬n < 0x10000) :
    (isLead (lead n) && isTrail (trail n)) = true ∧ pair (lead n) (trail n) = n := by
  have hn' : n < 0x110000 := by
    unfold IsScalar at h
    omega
  obtain ⟨hlead, htrail⟩ := toNat_pair h hn
  refine ⟨?_, ?_⟩
  · rw [Bool.and_eq_true, isLead_iff, isTrail_iff]
    omega
  · unfold pair
    omega

theorem wellFormed_units (h : IsScalar n) (ht : WellFormed t) : WellFormed (units n ++ t) := by
  unfold units
  split_ifs with hn
  · obtain ⟨hsurrogate, -⟩ := lone_ofNat h hn
    cases t with
    | nil =>
      rw [append_nil, WellFormed]
      exact hsurrogate
    | cons d rest =>
      rw [singleton_append, WellFormed, if_neg (not_pair hsurrogate)]
      exact ⟨hsurrogate, ht⟩
  · obtain ⟨hlead, -⟩ := pair_ofNat h hn
    rw [cons_append, singleton_append, WellFormed, if_pos hlead]
    exact ht

/-- A well-formed text is built code point by code point. -/
@[elab_as_elim]
theorem WellFormed.induction {motive : ∀ t, WellFormed t → Prop}
    (nil : motive [] trivial)
    (cons : ∀ n t (hn : IsScalar n) (ht : WellFormed t),
      motive t ht → motive (units n ++ t) (wellFormed_units hn ht))
    (h : WellFormed t) : motive t h := by
  induction hlen : t.length using Nat.strong_induction_on generalizing t with
  | _ length ih =>
    by_cases hne : t = []
    · subst hne
      exact nil
    · obtain ⟨n, rest, hn, hrest, rfl⟩ := wellFormed_cases h hne
      have hpos := length_pos_iff.mpr (units_ne_nil n)
      rw [length_append] at hlen
      exact cons n rest hn hrest (ih _ (by omega) hrest rfl)

theorem wellFormed_append {u : Text} (h : WellFormed t) (h' : WellFormed u) :
    WellFormed (t ++ u) := by
  induction h using WellFormed.induction with
  | nil => exact h'
  | cons n rest hn _ ih =>
    rw [append_assoc]
    exact wellFormed_units hn ih

theorem encode_units (h : IsScalar n) (t : Text) : encode (units n ++ t) = bytes n ++ encode t := by
  unfold units
  split_ifs with hn
  · obtain ⟨hsurrogate, hlone⟩ := lone_ofNat h hn
    cases t with
    | nil =>
      have hone : encode [.ofNat n] = bytes (lone (.ofNat n)) := by rw [encode]
      rw [append_nil, hone, hlone, encode, append_nil]
    | cons d rest =>
      rw [singleton_append, encode, if_neg (not_pair hsurrogate), hlone]
  · obtain ⟨hlead, hpair⟩ := pair_ofNat h hn
    rw [cons_append, singleton_append, encode, if_pos hlead, hpair]

theorem encode_append (h : WellFormed t) (u : Text) : encode (t ++ u) = encode t ++ encode u := by
  induction h using WellFormed.induction with
  | nil => rfl
  | cons n rest hn _ ih =>
    rw [append_assoc, encode_units hn, ih, encode_units hn, append_assoc]

theorem decode_encoded (h : WellFormed t) (rest : List UInt8) :
    decode (encode t ++ rest) = t ++ decode rest := by
  induction h using WellFormed.induction with
  | nil => rfl
  | cons n t hn _ ih =>
    rw [encode_units hn, append_assoc, decode_bytes hn, ih, append_assoc]

/-- Bytes of a text that are cut short read as part of the text, and perhaps U+FFFD for the
character that was cut. -/
theorem decode_take (h : WellFormed t) {k : ℕ} (hk : k < (encode t).length) :
    ∃ part tail, decode ((encode t).take k) = part ++ tail ∧ part <+: t ∧ part ≠ t ∧
      (tail = [] ∨ tail = [replacement]) := by
  induction h using WellFormed.induction generalizing k with
  | nil => exact absurd hk (Nat.not_lt_zero k)
  | cons n t hn _ ih =>
    rw [encode_units hn] at hk ⊢
    by_cases hcut : k < (bytes n).length
    · rw [take_append_of_le_length hcut.le]
      have hne : units n ++ t ≠ [] := fun h => units_ne_nil n (append_eq_nil_iff.mp h).1
      refine ⟨[], decode ((bytes n).take k), rfl, nil_prefix, hne.symm, ?_⟩
      rcases Nat.eq_zero_or_pos k with hzero | hk'
      · rw [hzero]
        exact .inl rfl
      · exact .inr (decode_cut hn hk' hcut)
    · rw [length_append] at hk
      rw [take_append, take_of_length_le (by omega), decode_bytes hn]
      obtain ⟨part, tail, hdecode, hpart, hproper, htail⟩ :=
        ih (k := k - (bytes n).length) (by omega)
      refine ⟨units n ++ part, tail, ?_, ?_, ?_, htail⟩
      · rw [hdecode, append_assoc]
      · exact (prefix_append_right_inj _).mpr hpart
      · intro heq
        exact hproper (append_cancel_left heq)

/-! ### Lines -/

/-- A line feed never continues a character. -/
def Decoder.Sound (d : Decoder) : Prop :=
  0x80 ≤ d.low

theorem sound_first (b : UInt8) : (first b).1.Sound := by
  unfold first Decoder.Sound
  split_ifs <;> simp [initial]

variable {d : Decoder}

theorem sound_step (b : UInt8) : (step d b).1.Sound := by
  unfold step
  split_ifs
  · exact sound_first b
  · exact sound_first b
  · exact le_refl _
  · exact le_refl _

theorem step_newline (h : d.Sound) : step d 10 = (initial, decodeFrom d [] ++ [10]) := by
  have hfirst : first 10 = (initial, [10]) := rfl
  have hlow : (10 : UInt8).toNat < d.low := lt_of_lt_of_le (by decide) h
  unfold step decodeFrom
  by_cases hneeded : d.needed = 0
  · rw [if_pos hneeded, if_pos hneeded, hfirst]
    rfl
  · rw [if_neg hneeded, if_neg hneeded, if_pos (.inl hlow), hfirst]
    rfl

theorem decodeFrom_newline (h : d.Sound) (front rest : List UInt8) :
    decodeFrom d (front ++ 10 :: rest) = decodeFrom d front ++ 10 :: decode rest := by
  induction front generalizing d with
  | nil =>
    rw [nil_append, decodeFrom_cons, step_newline h, append_assoc]
    rfl
  | cons b front ih =>
    rw [cons_append, decodeFrom_cons, ih (sound_step b), decodeFrom_cons, append_assoc]

theorem decode_newline (front rest : List UInt8) :
    decode (front ++ 10 :: rest) = decode front ++ 10 :: decode rest :=
  decodeFrom_newline (show initial.Sound from le_refl _) front rest

end Utf8
