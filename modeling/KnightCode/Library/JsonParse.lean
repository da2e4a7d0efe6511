import KnightCode.Library.JsonValue
import Mathlib.Data.List.TakeWhile

/-!
# What is printed is read back

A printed value reads as itself, whatever follows it, when a number does not go on behind it.
-/

namespace JsonText

open List Option
variable {c : UInt16}

/-! ### Strings -/

theorem readString_raw (h34 : c ≠ 34) (h92 : c ≠ 92) (h32 : ¬c < 32) (t : Text) :
    readString .plain (c :: t) = (readString .plain t).map (Prod.map (cons c) id) := by
  simp only [readString, if_neg h34, if_neg h92, if_neg h32]

theorem isHexDigit_hexDigit {n : ℕ} (h : n < 16) :
    isHexDigit (hexDigit n) = true ∧ hexUnitValue (hexDigit n) = n := by
  have hall : ∀ m < 16, isHexDigit (hexDigit m) = true ∧ hexUnitValue (hexDigit m) = m := by
    decide
  exact hall n h

theorem readString_escape (c : UInt16) (t : Text) :
    readString .plain (escape c ++ t) = (readString .plain t).map (Prod.map (cons c) id) := by
  have hlt : c.toNat < 65536 := c.toNat_lt
  obtain ⟨hd₁, hv₁⟩ := isHexDigit_hexDigit (show c.toNat / 4096 < 16 by omega)
  obtain ⟨hd₂, hv₂⟩ := isHexDigit_hexDigit (show c.toNat / 256 % 16 < 16 by omega)
  obtain ⟨hd₃, hv₃⟩ := isHexDigit_hexDigit (show c.toNat / 16 % 16 < 16 by omega)
  obtain ⟨hd₄, hv₄⟩ := isHexDigit_hexDigit (show c.toNat % 16 < 16 by omega)
  have hsum : (((0 * 16 + c.toNat / 4096) * 16 + c.toNat / 256 % 16) * 16 + c.toNat / 16 % 16) *
      16 + c.toNat % 16 = c.toNat := by omega
  have hne : (92 : UInt16) ≠ 34 := by decide
  simp only [escape, cons_append, nil_append, readString, if_neg hne, if_true, hd₁, hd₂,
    hd₃, hd₄, hv₁, hv₂, hv₃, hv₄]
  rw [hsum, UInt16.ofNat_toNat]
  rfl

theorem escapeUnit_shortEscape {e : UInt16} (h : shortEscape c = some e) :
    e ≠ 117 ∧ escapeUnit e = some c := by
  unfold shortEscape at h
  split_ifs at h with h₁ h₂ h₃ h₄ h₅ h₆ h₇
  all_goals
    cases h
    subst_vars
    decide

theorem readString_unit (c : UInt16) (t : Text) :
    readString .plain (unit c ++ t) = (readString .plain t).map (Prod.map (cons c) id) := by
  unfold unit
  cases h : shortEscape c with
  | some e =>
    obtain ⟨hne, he⟩ := escapeUnit_shortEscape h
    have h92 : (92 : UInt16) ≠ 34 := by decide
    simp only [cons_append, nil_append, readString, if_neg h92, if_true, if_neg hne, he]
  | none =>
    dsimp only
    split_ifs with hc
    · exact readString_escape c t
    · refine readString_raw ?_ ?_ hc t
      · rintro rfl
        cases h
      · rintro rfl
        cases h

theorem readString_single (c : UInt16) (t : Text) :
    readString .plain (single c ++ t) = (readString .plain t).map (Prod.map (cons c) id) := by
  unfold single
  split_ifs
  · exact readString_escape c t
  · exact readString_unit c t

theorem not_lt_of_surrogate (h : isLead c = true ∨ isTrail c = true) : ¬c < 32 := by
  rw [isLead_iff, isTrail_iff] at h
  rw [UInt16.lt_iff_toNat_lt]
  have h32 : (32 : UInt16).toNat = 32 := rfl
  omega

theorem readString_quoteUnits (s t : Text) :
    readString .plain (quoteUnits s ++ 34 :: t) = some (s, t) := by
  induction s using quoteUnits.induct with
  | case1 => rfl
  | case2 c =>
    rw [quoteUnits, readString_single]
    rfl
  | case3 c d rest hcd ih =>
    obtain ⟨hc, hd⟩ := Bool.and_eq_true_iff.mp hcd
    obtain ⟨hc34, hc92⟩ := ne_of_surrogate (.inl hc)
    obtain ⟨hd34, hd92⟩ := ne_of_surrogate (.inr hd)
    rw [quoteUnits, if_pos hcd, cons_append, cons_append, readString_raw hc34 hc92
      (not_lt_of_surrogate (.inl hc)), readString_raw hd34 hd92 (not_lt_of_surrogate (.inr hd)), ih]
    rfl
  | case4 c d rest hcd ih =>
    rw [quoteUnits, if_neg hcd, append_assoc, readString_single, ih]
    rfl

theorem quote_append_inj {s s' t t' : Text} (h : quote s ++ t = quote s' ++ t') :
    s = s' ∧ t = t' := by
  simp only [quote, cons_append, append_assoc, nil_append, cons.injEq, true_and] at h
  have hread := congrArg (readString .plain) h
  rw [readString_quoteUnits, readString_quoteUnits] at hread
  cases hread
  exact ⟨rfl, rfl⟩

/-! ### Numbers -/

theorem NumberState.next_unit {s s' : NumberState} (h : s.next c = some s') :
    isNumberUnit c = true := by
  rcases eq_or_ne c 48 with rfl | hzero
  · rfl
  simp only [isNumberUnit, Bool.or_eq_true, decide_eq_true_eq]
  cases s <;> simp only [NumberState.next] at h <;> split_ifs at h <;> tauto

theorem isNumberUnit_of_mem {s : NumberState} {literal : Text}
    (h : numberFrom s literal = true) : ∀ c ∈ literal, isNumberUnit c = true := by
  induction literal generalizing s with
  | nil => exact fun c hc => absurd hc not_mem_nil
  | cons d literal ih =>
    unfold numberFrom at h
    cases hs : s.next d with
    | none =>
      rw [hs] at h
      cases h
    | some s' =>
      rw [hs] at h
      intro c hc
      rcases mem_cons.mp hc with rfl | hc
      · exact NumberState.next_unit hs
      · exact ih h c hc

theorem Number.literal_cons (n : Number) :
    ∃ c rest, n.literal = c :: rest ∧ (isDigit c = true ∨ c = 45) := by
  obtain ⟨literal, valid⟩ := n
  cases literal with
  | nil => cases valid
  | cons c rest =>
    refine ⟨c, rest, rfl, ?_⟩
    simp only [numberFrom, NumberState.next] at valid
    by_cases h45 : c = 45
    · exact .inr h45
    by_cases h48 : c = 48
    · rw [h48]
      exact .inl rfl
    rw [if_neg h45, if_neg h48] at valid
    by_cases hd : isDigit c = true
    · exact .inl hd
    · rw [if_neg hd] at valid
      cases valid

/-- A number does not go on in the text. -/
def Ends (t : Text) : Prop :=
  ∀ c ∈ t.head?, isNumberUnit c = false

theorem readNumber_literal (n : Number) {t : Text} (ht : Ends t) :
    readNumber (n.literal ++ t) = some (.number n, t) := by
  have hall := isNumberUnit_of_mem n.valid
  have htake : (n.literal ++ t).takeWhile isNumberUnit = n.literal := by
    rw [takeWhile_append_of_pos hall]
    cases t with
    | nil => simp
    | cons c t => simp [ht c rfl]
  have hdrop : (n.literal ++ t).dropWhile isNumberUnit = t := by
    rw [dropWhile_append_of_pos hall]
    cases t with
    | nil => rfl
    | cons c t => simp [ht c rfl]
  unfold readNumber
  simp only [htake, hdrop, n.valid, dite_true]

/-! ### Values -/

theorem expect_cons (c : UInt16) (t : Text) : expect c (c :: t) = some t := by
  rw [expect, if_pos rfl]

theorem expect_ne {d : UInt16} (h : d ≠ c) (t : Text) : expect c (d :: t) = none := by
  rw [expect, if_neg h]

theorem skip_cons (h : isSpace c = false) (t : Text) : skip (c :: t) = c :: t := by
  rw [skip, dropWhile_cons, h]
  rfl

theorem keyword_append (word t : Text) : keyword word (word ++ t) = some t := by
  unfold keyword
  rw [if_pos (prefix_append _ _), drop_left]

theorem keyword_ne {d : UInt16} (h : c ≠ d) (word t : Text) :
    keyword (d :: word) (c :: t) = none := by
  unfold keyword
  rw [if_neg]
  intro hp
  exact h (cons_prefix_cons.mp hp).1.symm

/-- The first code unit of a value: no white space, and no end of an array or object. -/
def Begins (c : UInt16) : Prop :=
  isSpace c = false ∧ c ≠ 93 ∧ c ≠ 125

theorem begins_of_digit (h : isDigit c = true ∨ c = 45) :
    Begins c ∧ c ≠ 34 ∧ c ≠ 91 ∧ c ≠ 123 ∧ c ≠ 110 ∧ c ≠ 116 ∧ c ≠ 102 := by
  have hne : ∀ d : UInt16, isDigit d = false → d ≠ 45 → c ≠ d := by
    rintro d hd h45 rfl
    rcases h with h | h
    · rw [hd] at h
      cases h
    · exact h45 h
  refine ⟨⟨?_, hne 93 rfl (by decide), hne 125 rfl (by decide)⟩, hne 34 rfl (by decide),
    hne 91 rfl (by decide), hne 123 rfl (by decide), hne 110 rfl (by decide),
    hne 116 rfl (by decide), hne 102 rfl (by decide)⟩
  have h9 := hne 9 rfl (by decide)
  have h10 := hne 10 rfl (by decide)
  have h13 := hne 13 rfl (by decide)
  have h32 := hne 32 rfl (by decide)
  simp [isSpace, h9, h10, h13, h32]

variable (v : Value) (t : Text)

theorem Value.print_cons : ∃ c rest, v.print = c :: rest ∧ Begins c := by
  cases v with
  | null => exact ⟨110, _, by rw [Value.print]; rfl, rfl, by decide, by decide⟩
  | bool b =>
    cases b with
    | true => exact ⟨116, _, by rw [Value.print]; rfl, rfl, by decide, by decide⟩
    | false => exact ⟨102, _, by rw [Value.print]; rfl, rfl, by decide, by decide⟩
  | number n =>
    obtain ⟨c, rest, hn, hc⟩ := n.literal_cons
    exact ⟨c, rest, by rw [Value.print, hn], (begins_of_digit hc).1⟩
  | string s => exact ⟨34, _, by rw [Value.print]; rfl, rfl, by decide, by decide⟩
  | array items => exact ⟨91, _, by rw [Value.print], rfl, by decide, by decide⟩
  | object members => exact ⟨123, _, by rw [Value.print], rfl, by decide, by decide⟩

theorem readScalar_null : readScalar ((Value.null).print ++ t) = some (.null, t) := by
  have h := keyword_append (ascii "null") t
  rw [Value.print]
  change readScalar (110 :: (ascii "ull" ++ t)) = _
  change keyword (ascii "null") (110 :: (ascii "ull" ++ t)) = _ at h
  rw [readScalar, expect_ne (by decide)]
  simp only [readWord, h]

theorem readScalar_bool (b : Bool) (t : Text) :
    readScalar ((Value.bool b).print ++ t) = some (.bool b, t) := by
  cases b with
  | true =>
    have h := keyword_append (ascii "true") t
    rw [Value.print]
    change readScalar (116 :: (ascii "rue" ++ t)) = _
    change keyword (ascii "true") (116 :: (ascii "rue" ++ t)) = _ at h
    have hnull : keyword (ascii "null") (116 :: (ascii "rue" ++ t)) = none :=
      keyword_ne (by decide) (ascii "ull") _
    rw [readScalar, expect_ne (by decide)]
    simp only [readWord, h, hnull]
  | false =>
    have h := keyword_append (ascii "false") t
    rw [Value.print]
    change readScalar (102 :: (ascii "alse" ++ t)) = _
    change keyword (ascii "false") (102 :: (ascii "alse" ++ t)) = _ at h
    have hnull : keyword (ascii "null") (102 :: (ascii "alse" ++ t)) = none :=
      keyword_ne (by decide) (ascii "ull") _
    have htrue : keyword (ascii "true") (102 :: (ascii "alse" ++ t)) = none :=
      keyword_ne (by decide) (ascii "rue") _
    rw [readScalar, expect_ne (by decide)]
    simp only [readWord, h, hnull, htrue]

theorem readScalar_number (n : Number) {t : Text} (ht : Ends t) :
    readScalar ((Value.number n).print ++ t) = some (.number n, t) := by
  obtain ⟨c, rest, hn, hc⟩ := n.literal_cons
  obtain ⟨-, h34, -, -, h110, h116, h102⟩ := begins_of_digit hc
  have hread := readNumber_literal n ht
  rw [Value.print]
  rw [hn] at hread ⊢
  rw [cons_append] at hread ⊢
  have hnull : keyword (ascii "null") (c :: (rest ++ t)) = none :=
    keyword_ne h110 (ascii "ull") _
  have htrue : keyword (ascii "true") (c :: (rest ++ t)) = none :=
    keyword_ne h116 (ascii "rue") _
  have hfalse : keyword (ascii "false") (c :: (rest ++ t)) = none :=
    keyword_ne h102 (ascii "alse") _
  rw [readScalar, expect_ne h34]
  simp only [readWord, hnull, htrue, hfalse, hread]

theorem readScalar_string (s t : Text) :
    readScalar ((Value.string s).print ++ t) = some (.string s, t) := by
  rw [Value.print, quote, cons_append, append_assoc, singleton_append, readScalar, expect_cons]
  simp only [readString_quoteUnits]
  rfl

theorem readValue_scalar {fuel : ℕ} {t : Text} (hspace : isSpace c = false) (h91 : c ≠ 91)
    (h123 : c ≠ 123) : readValue (fuel + 1) (c :: t) = readScalar (c :: t) := by
  rw [readValue, skip_cons hspace, expect_ne h91, expect_ne h123]

def Value.Reads (v : Value) : Prop :=
  ∀ fuel t, 2 * v.print.length ≤ fuel → Ends t → readValue fuel (v.print ++ t) = some (v, t)

theorem ends_cons (h : isNumberUnit c = false) (t : Text) : Ends (c :: t) := by
  intro d hd
  rw [head?_cons, mem_some_iff] at hd
  rw [← hd]
  exact h

variable {items : List Value}

theorem readItems_print (hne : items ≠ []) (h : ∀ v ∈ items, v.Reads) (t : Text) (fuel : ℕ)
    (hfuel : 2 * (Value.printItems items).length + 1 ≤ fuel) :
    readItems fuel (Value.printItems items ++ 93 :: t) = some (items, t) := by
  induction items generalizing fuel with
  | nil => exact absurd rfl hne
  | cons v rest ih =>
    obtain ⟨fuel, rfl⟩ := Nat.exists_eq_add_of_le' (le_trans (Nat.le_add_left 1 _) hfuel)
    cases rest with
    | nil =>
      rw [Value.printItems] at hfuel ⊢
      have hread := h v mem_cons_self fuel (93 :: t) (by omega) (ends_cons rfl t)
      rw [readItems, hread, bind_some, skip_cons rfl, expect_ne (by decide), expect_cons]
      rfl
    | cons w rest =>
      rw [Value.printItems] at hfuel ⊢
      rw [length_append, length_cons] at hfuel
      rw [append_assoc, cons_append]
      have hread := h v mem_cons_self fuel (44 :: (Value.printItems (w :: rest) ++ 93 :: t))
        (by omega) (ends_cons rfl _)
      have hrest := ih (cons_ne_nil _ _) (fun u hu => h u (mem_cons_of_mem v hu))
        fuel (by omega)
      rw [readItems, hread, bind_some, skip_cons rfl, expect_cons]
      dsimp only
      rw [hrest]
      rfl

theorem printMember_append (key : Text) (v : Value) (t : Text) :
    quote key ++ 58 :: (v.print ++ t) = 34 :: (quoteUnits key ++ 34 :: 58 :: (v.print ++ t)) := by
  simp [quote]

variable {members : List (Text × Value)}

theorem readMembers_print (hne : members ≠ []) (h : ∀ m ∈ members, (Prod.snd m).Reads) (t : Text)
    (fuel : ℕ) (hfuel : 2 * (Value.printMembers members).length + 1 ≤ fuel) :
    readMembers fuel (Value.printMembers members ++ 125 :: t) = some (members, t) := by
  induction members generalizing fuel with
  | nil => exact absurd rfl hne
  | cons m rest ih =>
    obtain ⟨fuel, rfl⟩ := Nat.exists_eq_add_of_le' (le_trans (Nat.le_add_left 1 _) hfuel)
    obtain ⟨key, v⟩ := m
    cases rest with
    | nil =>
      rw [Value.printMembers] at hfuel ⊢
      simp only [length_append, length_cons] at hfuel
      have hread := h (key, v) mem_cons_self fuel (125 :: t) (by dsimp only; omega)
        (ends_cons rfl t)
      rw [append_assoc, cons_append, printMember_append, readMembers, skip_cons rfl,
        expect_cons, bind_some, readString_quoteUnits, bind_some, skip_cons rfl,
        expect_cons, bind_some, hread, bind_some, skip_cons rfl,
        expect_ne (by decide), expect_cons]
      rfl
    | cons m' rest =>
      rw [Value.printMembers] at hfuel ⊢
      simp only [length_append, length_cons] at hfuel
      have hread := h (key, v) mem_cons_self fuel
        (44 :: (Value.printMembers (m' :: rest) ++ 125 :: t)) (by dsimp only; omega)
        (ends_cons rfl _)
      have hrest := ih (cons_ne_nil _ _) (fun u hu => h u (mem_cons_of_mem _ hu))
        fuel (by omega)
      rw [append_assoc, cons_append, append_assoc, cons_append, printMember_append, readMembers,
        skip_cons rfl, expect_cons, bind_some, readString_quoteUnits, bind_some, skip_cons rfl,
        expect_cons, bind_some, hread, bind_some, skip_cons rfl, expect_cons]
      dsimp only
      rw [hrest]
      rfl

theorem Value.print_ne_nil : v.print ≠ [] := by
  obtain ⟨c, rest, h, -⟩ := v.print_cons
  rw [h]
  exact cons_ne_nil _ _

theorem printItems_cons (hne : items ≠ []) :
    ∃ c rest, Value.printItems items = c :: rest ∧ Begins c := by
  cases items with
  | nil => exact absurd rfl hne
  | cons v rest =>
    obtain ⟨c, t, hv, hc⟩ := v.print_cons
    cases rest with
    | nil => exact ⟨c, t, by rw [Value.printItems, hv], hc⟩
    | cons w rest => exact ⟨c, _, by rw [Value.printItems, hv]; rfl, hc⟩

theorem printMembers_cons (hne : members ≠ []) :
    ∃ rest, Value.printMembers members = 34 :: rest := by
  cases members with
  | nil => exact absurd rfl hne
  | cons m rest =>
    obtain ⟨key, v⟩ := m
    cases rest with
    | nil | cons m rest => exact ⟨_, by rw [Value.printMembers, quote]; rfl⟩

theorem Value.reads : v.Reads := by
  have hfuel : ∀ {w : Value} {fuel : ℕ}, 2 * w.print.length ≤ fuel → ∃ n, fuel = n + 1 := by
    intro w fuel h
    have hpos := length_pos_iff.mpr w.print_ne_nil
    exact Nat.exists_eq_add_of_le' (by omega)
  induction v using Value.induction with
  | null =>
    intro fuel t h _
    obtain ⟨fuel, rfl⟩ := hfuel h
    rw [← readScalar_null t, Value.print]
    exact readValue_scalar rfl (by decide) (by decide)
  | bool b =>
    intro fuel t h _
    obtain ⟨fuel, rfl⟩ := hfuel h
    rw [← readScalar_bool b t]
    cases b with
    | true | false =>
      rw [Value.print]
      exact readValue_scalar rfl (by decide) (by decide)
  | number n =>
    intro fuel t h ht
    obtain ⟨fuel, rfl⟩ := hfuel h
    obtain ⟨c, rest, hn, hc⟩ := n.literal_cons
    obtain ⟨hbegins, -, h91, h123, -⟩ := begins_of_digit hc
    rw [← readScalar_number n ht, Value.print, hn, cons_append]
    exact readValue_scalar hbegins.1 h91 h123
  | string s =>
    intro fuel t h _
    obtain ⟨fuel, rfl⟩ := hfuel h
    rw [← readScalar_string s t, Value.print, quote, cons_append]
    exact readValue_scalar rfl (by decide) (by decide)
  | array items ih =>
    intro fuel t h _
    obtain ⟨fuel, rfl⟩ := hfuel h
    rw [Value.print] at h ⊢
    rw [length_cons, length_append, length_singleton] at h
    rw [cons_append, append_assoc, singleton_append, readValue, skip_cons rfl, expect_cons]
    dsimp only
    by_cases hne : items = []
    · rw [hne, Value.printItems, nil_append, skip_cons rfl, expect_cons]
    · obtain ⟨c, rest, hprint, hc⟩ := printItems_cons hne
      have hread := readItems_print hne ih t fuel (by omega)
      rw [hprint, cons_append] at hread ⊢
      rw [skip_cons hc.1, expect_ne hc.2.1]
      dsimp only
      rw [hread]
      rfl
  | object members ih =>
    intro fuel t h _
    obtain ⟨fuel, rfl⟩ := hfuel h
    rw [Value.print] at h ⊢
    rw [length_cons, length_append, length_singleton] at h
    rw [cons_append, append_assoc, singleton_append, readValue, skip_cons rfl,
      expect_ne (by decide), expect_cons]
    dsimp only
    by_cases hne : members = []
    · rw [hne, Value.printMembers, nil_append, skip_cons rfl, expect_cons]
    · obtain ⟨rest, hprint⟩ := printMembers_cons hne
      have hread := readMembers_print hne ih t fuel (by omega)
      rw [hprint, cons_append] at hread ⊢
      rw [skip_cons rfl, expect_ne (by decide)]
      dsimp only
      rw [hread]
      rfl

theorem parse_print : parse v.print = some v := by
  have hread := v.reads (2 * v.print.length + 2) [] (Nat.le_add_right _ _) (fun c hc => by cases hc)
  rw [append_nil] at hread
  rw [parse, hread]
  rfl

/-! ### The parts of a printed value -/

/-- Code units that neither quote nor bracket. -/
def Plain (c : UInt16) : Prop :=
  c ≠ 34 ∧ c ≠ 91 ∧ c ≠ 93 ∧ c ≠ 123 ∧ c ≠ 125

theorem plain_of_numberUnit (h : isNumberUnit c = true) : Plain c ∧ 32 ≤ c ∧ c < 128 := by
  simp only [isNumberUnit, isDigit, Bool.or_eq_true, Bool.and_eq_true, decide_eq_true_eq,
    UInt16.le_iff_toNat_le, ← UInt16.toNat_inj] at h
  simp only [Plain, ne_eq, UInt16.le_iff_toNat_le, UInt16.lt_iff_toNat_lt, ← UInt16.toNat_inj]
  have hall : ∀ n < 128, (UInt16.ofNat n).toNat = n := by decide
  have h32 : (32 : UInt16).toNat = 32 := rfl
  have h34 : (34 : UInt16).toNat = 34 := rfl
  have h43 : (43 : UInt16).toNat = 43 := rfl
  have h45 : (45 : UInt16).toNat = 45 := rfl
  have h46 : (46 : UInt16).toNat = 46 := rfl
  have h48 : (48 : UInt16).toNat = 48 := rfl
  have h57 : (57 : UInt16).toNat = 57 := rfl
  have h69 : (69 : UInt16).toNat = 69 := rfl
  have h91 : (91 : UInt16).toNat = 91 := rfl
  have h93 : (93 : UInt16).toNat = 93 := rfl
  have h101 : (101 : UInt16).toNat = 101 := rfl
  have h123 : (123 : UInt16).toNat = 123 := rfl
  have h125 : (125 : UInt16).toNat = 125 := rfl
  have h128 : (128 : UInt16).toNat = 128 := rfl
  omega

theorem plain_ascii (word : String) (h : (ascii word).all (fun c => c ≠ 34 && c ≠ 91 && c ≠ 93 &&
    c ≠ 123 && c ≠ 125 && 32 ≤ c && c < 128) = true) :
    ∀ c ∈ ascii word, Plain c ∧ 32 ≤ c ∧ c < 128 := by
  intro c hc
  have hall := all_eq_true.mp h c hc
  simpa [Plain, and_assoc] using hall

/-- What holds of the parts of a printed value holds of the value. -/
structure Texts (P : Text → Prop) : Prop where
  append : ∀ {t u}, P t → P u → P (t ++ u)
  plain : ∀ t, (∀ c ∈ t, Plain c ∧ 32 ≤ c ∧ c < 128) → P t
  quote : ∀ s, P (JsonText.quote s)
  bracket : ∀ opening closing t, opening = 91 ∨ opening = 123 → closing = 93 ∨ closing = 125 →
    P t → P (opening :: (t ++ [closing]))

namespace Texts

variable {P : Text → Prop}

theorem cons (h : Texts P) {c : UInt16} (hc : c = 44 ∨ c = 58) {t : Text} (ht : P t) :
    P (c :: t) := by
  refine h.append (h.plain [c] ?_) ht
  intro d hd
  rw [mem_singleton.mp hd]
  rcases hc with rfl | rfl <;> (unfold Plain; decide)

theorem printItems (h : Texts P) (hitems : ∀ v ∈ items, P v.print) :
    P (Value.printItems items) := by
  induction items with
  | nil =>
    rw [Value.printItems]
    exact h.plain [] fun c hc => absurd hc not_mem_nil
  | cons v rest ih =>
    have hv := hitems v mem_cons_self
    cases rest with
    | nil =>
      rw [Value.printItems]
      exact hv
    | cons w rest =>
      rw [Value.printItems]
      exact h.append hv (h.cons (.inl rfl) (ih fun u hu => hitems u (mem_cons_of_mem v hu)))

theorem printMembers (h : Texts P) (hmembers : ∀ m ∈ members, P (Prod.snd m).print) :
    P (Value.printMembers members) := by
  induction members with
  | nil =>
    rw [Value.printMembers]
    exact h.plain [] fun c hc => absurd hc not_mem_nil
  | cons m rest ih =>
    obtain ⟨key, v⟩ := m
    have hv : P v.print := hmembers (key, v) mem_cons_self
    cases rest with
    | nil =>
      rw [Value.printMembers]
      exact h.append (h.quote key) (h.cons (.inr rfl) hv)
    | cons m rest =>
      rw [Value.printMembers]
      have hrest := ih fun u hu => hmembers u (mem_cons_of_mem _ hu)
      exact h.append (h.quote key) (h.cons (.inr rfl) (h.append hv (h.cons (.inl rfl) hrest)))

theorem print (h : Texts P) (v : Value) : P v.print := by
  induction v using Value.induction with
  | null =>
    rw [Value.print]
    exact h.plain _ (plain_ascii "null" rfl)
  | bool b =>
    cases b with
    | true =>
      rw [Value.print]
      exact h.plain _ (plain_ascii "true" rfl)
    | false =>
      rw [Value.print]
      exact h.plain _ (plain_ascii "false" rfl)
  | number n =>
    rw [Value.print]
    exact h.plain _ fun c hc => plain_of_numberUnit (isNumberUnit_of_mem n.valid c hc)
  | string s =>
    rw [Value.print]
    exact h.quote s
  | array items ih =>
    rw [Value.print]
    exact h.bracket 91 93 _ (.inl rfl) (.inl rfl) (h.printItems ih)
  | object members ih =>
    rw [Value.print]
    exact h.bracket 123 125 _ (.inr rfl) (.inr rfl) (h.printMembers ih)

end Texts

end JsonText
