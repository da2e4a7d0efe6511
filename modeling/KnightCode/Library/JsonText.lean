import Mathlib.Data.Nat.Digits.Lemmas

/-!
# Strings and numbers in JSON text

A text is a list of UTF-16 code units. `quote` writes a string as JSON text does: control
characters, quotation marks, reverse solidi and lone surrogates are escaped, everything else stands
for itself. `decimal` writes a natural number in decimal digits.
-/

abbrev Text := List UInt16

instance (text : Text) (texts : List Text) : Decidable (text ∈ texts) :=
  List.instDecidableMemOfLawfulBEq text texts

def ascii (s : String) : Text :=
  s.toList.map (fun c => UInt16.ofNat c.toNat)

namespace JsonText

open List
variable {n : ℕ} {c : UInt16}

def isLead (c : UInt16) : Bool := 0xD800 ≤ c && c ≤ 0xDBFF

def isTrail (c : UInt16) : Bool := 0xDC00 ≤ c && c ≤ 0xDFFF

theorem isLead_iff : isLead c = true ↔ 0xD800 ≤ c.toNat ∧ c.toNat ≤ 0xDBFF := by
  simp only [isLead, Bool.and_eq_true, decide_eq_true_eq, UInt16.le_iff_toNat_le]
  rfl

theorem isTrail_iff : isTrail c = true ↔ 0xDC00 ≤ c.toNat ∧ c.toNat ≤ 0xDFFF := by
  simp only [isTrail, Bool.and_eq_true, decide_eq_true_eq, UInt16.le_iff_toNat_le]
  rfl

def hexDigit (n : ℕ) : UInt16 :=
  UInt16.ofNat (if n < 10 then 48 + n else 87 + n)

/-- The four-digit escape of a code unit. -/
def escape (c : UInt16) : Text :=
  [92, 117, hexDigit (c.toNat / 4096), hexDigit (c.toNat / 256 % 16), hexDigit (c.toNat / 16 % 16),
    hexDigit (c.toNat % 16)]

/-- The letter of a two-character escape. -/
def shortEscape (c : UInt16) : Option UInt16 :=
  if c = 8 then some 98
  else if c = 9 then some 116
  else if c = 10 then some 110
  else if c = 12 then some 102
  else if c = 13 then some 114
  else if c = 34 then some 34
  else if c = 92 then some 92
  else none

/-- One code unit that is no surrogate. -/
def unit (c : UInt16) : Text :=
  match shortEscape c with
  | some e => [92, e]
  | none => if c < 32 then escape c else [c]

/-- One code unit that is no half of a surrogate pair. -/
def single (c : UInt16) : Text :=
  if isLead c || isTrail c then escape c else unit c

def quoteUnits : Text → Text
  | [] => []
  | [c] => single c
  | c :: d :: rest =>
    if isLead c && isTrail d then c :: d :: quoteUnits rest else single c ++ quoteUnits (d :: rest)

def quote (s : Text) : Text :=
  34 :: (quoteUnits s ++ [34])

theorem ne_of_surrogate (h : isLead c = true ∨ isTrail c = true) : c ≠ 34 ∧ c ≠ 92 := by
  constructor
  · rintro rfl
    revert h
    decide
  · rintro rfl
    revert h
    decide

/-! ### Decimal digits -/

def digit (d : ℕ) : UInt16 :=
  UInt16.ofNat (48 + d)

def isDigit (c : UInt16) : Bool := 48 ≤ c && c ≤ 57

/-- The decimal digits of a number, the last digit first. -/
def digits (n : ℕ) : List ℕ :=
  if n = 0 then [0] else Nat.digits 10 n

def decimal (n : ℕ) : Text :=
  (digits n).reverse.map digit

theorem digits_lt {d : ℕ} (h : d ∈ digits n) : d < 10 := by
  unfold digits at h
  split_ifs at h
  · rw [mem_singleton.mp h]
    exact Nat.succ_pos 9
  · exact Nat.digits_lt_base (by decide) h

theorem ofDigits_digits (n : ℕ) : Nat.ofDigits 10 (digits n) = n := by
  unfold digits
  split_ifs with h
  · rw [h]
    rfl
  · exact Nat.ofDigits_digits 10 n

theorem digit_inj {d d' : ℕ} (h : d < 10) (h' : d' < 10) (hd : digit d = digit d') : d = d' := by
  have hall : ∀ d < 10, ∀ d' < 10, digit d = digit d' → d = d' := by decide
  exact hall d h d' h' hd

theorem isDigit_digit {d : ℕ} (h : d < 10) : isDigit (digit d) = true := by
  have hall : ∀ d < 10, isDigit (digit d) = true := by decide
  exact hall d h

theorem isDigit_of_mem_decimal (h : c ∈ decimal n) : isDigit c = true := by
  obtain ⟨d, hd, rfl⟩ := mem_map.mp h
  exact isDigit_digit (digits_lt (mem_reverse.mp hd))

theorem decimal_ne_nil (n : ℕ) : decimal n ≠ [] := by
  have hd : digits n ≠ [] := by
    unfold digits
    split_ifs with h
    · exact cons_ne_nil _ _
    · exact Nat.digits_ne_nil_iff_ne_zero.mpr h
  simpa [decimal] using hd

theorem decimal_injective : Function.Injective decimal := by
  intro n n' h
  have hmap : ∀ l l' : List ℕ, (∀ d ∈ l, d < 10) → (∀ d ∈ l', d < 10) →
      l.map digit = l'.map digit → l = l' := by
    intro l
    induction l with
    | nil => exact fun l' _ _ he => (map_eq_nil_iff.mp he.symm).symm
    | cons d l ih =>
      intro l' hl hl' he
      cases l' with
      | nil => cases he
      | cons d' l' =>
        obtain ⟨hd, hrest⟩ := cons.inj he
        have hdd := digit_inj (hl d mem_cons_self) (hl' d' mem_cons_self) hd
        rw [hdd, ih l' (fun x hx => hl x (mem_cons_of_mem _ hx))
          (fun x hx => hl' x (mem_cons_of_mem _ hx)) hrest]
  have hlt : ∀ n, ∀ d ∈ (digits n).reverse, d < 10 :=
    fun n d hd => digits_lt (mem_reverse.mp hd)
  have hrev := hmap _ _ (hlt n) (hlt n') h
  rw [← ofDigits_digits n, ← ofDigits_digits n', reverse_injective hrev]

theorem takeWhile_decimal {t : Text} (ht : ∀ c ∈ t.head?, isDigit c = false) :
    (decimal n ++ t).takeWhile isDigit = decimal n := by
  rw [takeWhile_append_of_pos (fun c hc => isDigit_of_mem_decimal hc)]
  cases t with
  | nil => simp
  | cons c t => simp [ht c rfl]

theorem decimal_append_inj {n' : ℕ} {t t' : Text} (ht : ∀ c ∈ t.head?, isDigit c = false)
    (ht' : ∀ c ∈ t'.head?, isDigit c = false) (h : decimal n ++ t = decimal n' ++ t') :
    n = n' ∧ t = t' := by
  have hd : decimal n = decimal n' := by
    rw [← takeWhile_decimal ht, h, takeWhile_decimal ht']
  rw [hd] at h
  exact ⟨decimal_injective hd, append_cancel_left h⟩

end JsonText
