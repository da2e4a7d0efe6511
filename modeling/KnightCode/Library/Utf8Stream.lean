import KnightCode.Library.CodePoints

/-!
# UTF-8 in pieces

Bytes that come in pieces are decoded as all of them at once. What a decoder gives is well formed,
whatever the bytes. Texts that do not begin or end within a surrogate pair are encoded one after
another, and the bytes of a text from a character on are those of a text.
-/

namespace Utf8

open List
variable {n : ℕ} {l : List ℕ} {t : Text}

open JsonText (isLead isTrail isLead_iff isTrail_iff)

/-! ### Bytes as they come -/

/-- The text of the characters that bytes complete. -/
def decodeSome : Decoder → List UInt8 → Decoder × Text
  | d, [] => (d, [])
  | d, b :: rest =>
    ((decodeSome (step d b).1 rest).1, (step d b).2 ++ (decodeSome (step d b).1 rest).2)

/-- What a decoder gives at the end. -/
def flush (d : Decoder) : Text :=
  if d.needed = 0 then [] else [replacement]

variable (d : Decoder)

theorem decodeSome_cons (b : UInt8) (rest : List UInt8) :
    decodeSome d (b :: rest) =
      ((decodeSome (step d b).1 rest).1, (step d b).2 ++ (decodeSome (step d b).1 rest).2) := rfl

theorem decodeSome_append (front rest : List UInt8) :
    decodeSome d (front ++ rest) = ((decodeSome (decodeSome d front).1 rest).1,
      (decodeSome d front).2 ++ (decodeSome (decodeSome d front).1 rest).2) := by
  induction front generalizing d with
  | nil => rfl
  | cons b front ih =>
    rw [cons_append, decodeSome_cons, decodeSome_cons, ih, append_assoc]

theorem decodeFrom_eq (rest : List UInt8) :
    decodeFrom d rest = (decodeSome d rest).2 ++ flush (decodeSome d rest).1 := by
  induction rest generalizing d with
  | nil => rfl
  | cons b rest ih => rw [decodeFrom_cons, decodeSome_cons, ih, append_assoc]

/-! ### What a decoder gives -/

/-- Whatever the bytes to come, the code point will be no half of a surrogate pair. -/
def Decoder.Leads (d : Decoder) : Prop :=
  ∀ m rest, d.low ≤ 0x80 + m → 0x80 + m ≤ d.high → m < 0x40 → rest < 0x40 ^ (d.needed - 1) →
    IsScalar ((d.point * 0x40 + m) * 0x40 ^ (d.needed - 1) + rest)

structure Decoder.Valid (d : Decoder) : Prop where
  needed_le : d.needed ≤ 3
  low_ge : 0x80 ≤ d.low
  high_le : d.high ≤ 0xBF
  leads : 0 < d.needed → d.Leads

theorem valid_initial : initial.Valid :=
  ⟨Nat.zero_le _, le_rfl, le_rfl, fun h => absurd h (lt_irrefl 0)⟩

theorem wellFormed_replacement : WellFormed [replacement] :=
  show isSurrogate replacement = false by decide

theorem valid_two (hlow : 0xC2 ≤ n) (hhigh : n < 0xE0) :
    Decoder.Valid ⟨1, 0x80, 0xBF, n - 0xC0⟩ where
  needed_le := by dsimp only; omega
  low_ge := le_rfl
  high_le := le_rfl
  leads := by
    intro _ m rest _ _ hm hrest
    dsimp only at hrest ⊢
    rw [Nat.sub_self, pow_zero] at hrest ⊢
    left
    omega

theorem valid_three (hhigh : n < 0xF0) :
    Decoder.Valid ⟨2, if n = 0xE0 then 0xA0 else 0x80, if n = 0xED then 0x9F else 0xBF,
      n - 0xE0⟩ where
  needed_le := by dsimp only; omega
  low_ge := by
    dsimp only
    split <;> omega
  high_le := by
    dsimp only
    split <;> omega
  leads := by
    intro _ m rest hm₁ hm₂ hm hrest
    have hpow : 0x40 ^ (2 - 1) = 0x40 := rfl
    dsimp only at hm₁ hm₂ hrest ⊢
    rw [hpow] at hrest ⊢
    unfold IsScalar
    split_ifs at hm₁ hm₂ <;> omega

theorem valid_four (hlow : 0xF0 ≤ n) (hhigh : n < 0xF5) :
    Decoder.Valid ⟨3, if n = 0xF0 then 0x90 else 0x80, if n = 0xF4 then 0x8F else 0xBF,
      n - 0xF0⟩ where
  needed_le := by dsimp only; omega
  low_ge := by
    dsimp only
    split <;> omega
  high_le := by
    dsimp only
    split <;> omega
  leads := by
    intro _ m rest hm₁ hm₂ hm hrest
    have hpow : 0x40 ^ (3 - 1) = 0x1000 := rfl
    dsimp only at hm₁ hm₂ hrest ⊢
    rw [hpow] at hrest ⊢
    right
    split_ifs at hm₁ hm₂ <;> omega

theorem valid_first (b : UInt8) : (first b).1.Valid ∧ WellFormed (first b).2 := by
  unfold first
  by_cases h₁ : b.toNat < 0x80
  · rw [if_pos h₁]
    have hscalar : IsScalar b.toNat := .inl (by omega)
    exact ⟨valid_initial, (lone_ofNat hscalar (by omega)).1⟩
  rw [if_neg h₁]
  by_cases h₂ : b.toNat < 0xC2
  · rw [if_pos h₂]
    exact ⟨valid_initial, wellFormed_replacement⟩
  rw [if_neg h₂]
  by_cases h₃ : b.toNat < 0xE0
  · rw [if_pos h₃]
    exact ⟨valid_two (by omega) h₃, trivial⟩
  rw [if_neg h₃]
  by_cases h₄ : b.toNat < 0xF0
  · rw [if_pos h₄]
    exact ⟨valid_three h₄, trivial⟩
  rw [if_neg h₄]
  by_cases h₅ : b.toNat < 0xF5
  · rw [if_pos h₅]
    exact ⟨valid_four (by omega) h₅, trivial⟩
  · rw [if_neg h₅]
    exact ⟨valid_initial, wellFormed_replacement⟩

theorem wellFormed_point (h : IsScalar n) : WellFormed (units n) := by
  have hunits := wellFormed_units h (t := []) trivial
  rw [append_nil] at hunits
  exact hunits

theorem valid_step {d : Decoder} (h : d.Valid) (b : UInt8) :
    (step d b).1.Valid ∧ WellFormed (step d b).2 := by
  obtain ⟨hneeded, hlow, hhigh, hleads⟩ := h
  unfold step
  split_ifs with hzero hrange hone
  · exact valid_first b
  · exact ⟨(valid_first b).1, wellFormed_append wellFormed_replacement (valid_first b).2⟩
  · refine ⟨valid_initial, ?_⟩
    have hscalar := hleads (by omega) (b.toNat - 0x80) 0 (by omega) (by omega) (by omega)
      (Nat.pow_pos (by omega))
    rw [hone, Nat.sub_self, pow_zero, mul_one, add_zero] at hscalar
    generalize d.point * 0x40 + (b.toNat - 0x80) = n at hscalar ⊢
    exact wellFormed_point hscalar
  · refine ⟨⟨by dsimp only; omega, le_rfl, le_rfl, fun _ m rest hlow' hhigh' hm hrest => ?_⟩,
      trivial⟩
    dsimp only at hrest ⊢
    have hpow : 0x40 ^ (d.needed - 1) = 0x40 * 0x40 ^ (d.needed - 1 - 1) := by
      rw [← pow_succ', Nat.sub_add_cancel (by omega)]
    have hsplit : m * 0x40 ^ (d.needed - 1 - 1) + rest < 0x40 ^ (d.needed - 1) := by
      rw [hpow]
      calc m * 0x40 ^ (d.needed - 1 - 1) + rest
          < m * 0x40 ^ (d.needed - 1 - 1) + 0x40 ^ (d.needed - 1 - 1) := by omega
        _ = (m + 1) * 0x40 ^ (d.needed - 1 - 1) := by ring
        _ ≤ 0x40 * 0x40 ^ (d.needed - 1 - 1) := Nat.mul_le_mul_right _ hm
    have hscalar := hleads (by omega) (b.toNat - 0x80) _ (by omega) (by omega) (by omega) hsplit
    have heq : ((d.point * 0x40 + (b.toNat - 0x80)) * 0x40 + m) * 0x40 ^ (d.needed - 1 - 1) + rest =
        (d.point * 0x40 + (b.toNat - 0x80)) * 0x40 ^ (d.needed - 1) +
          (m * 0x40 ^ (d.needed - 1 - 1) + rest) := by
      rw [hpow]
      ring
    rw [heq]
    exact hscalar

theorem valid_decodeSome {d : Decoder} (h : d.Valid) (rest : List UInt8) :
    (decodeSome d rest).1.Valid ∧ WellFormed (decodeSome d rest).2 := by
  induction rest generalizing d with
  | nil => exact ⟨h, trivial⟩
  | cons b rest ih =>
    obtain ⟨hvalid, hwell⟩ := valid_step h b
    obtain ⟨hvalid', hwell'⟩ := ih hvalid
    exact ⟨hvalid', wellFormed_append hwell hwell'⟩

theorem wellFormed_flush : WellFormed (flush d) := by
  unfold flush
  split_ifs
  · trivial
  · exact wellFormed_replacement

theorem wellFormed_decode (rest : List UInt8) : WellFormed (decode rest) := by
  rw [decode, decodeFrom_eq]
  exact wellFormed_append (valid_decodeSome valid_initial rest).2 (wellFormed_flush _)

/-! ### The bytes of a text -/

theorem encode_points (t : Text) : encode t = (points t).flatMap bytes := by
  fun_induction points t with
  | case1 => rfl
  | case2 c => rw [encode, flatMap_cons, flatMap_nil, append_nil]
  | case3 c d rest hcd ih => rw [encode, if_pos hcd, ih, flatMap_cons]
  | case4 c d rest hcd ih => rw [encode, if_neg hcd, ih, flatMap_cons]

theorem decode_points (h : ∀ n ∈ l, IsScalar n) : decode (l.flatMap bytes) = ofPoints l := by
  induction l with
  | nil => rfl
  | cons n l ih =>
    rw [flatMap_cons, decode_bytes (h n mem_cons_self), ofPoints_cons,
      ih fun m hm => h m (mem_cons_of_mem n hm)]

theorem decode_encode_text (t : Text) : decode (encode t) = toWellFormed t := by
  rw [encode_points, decode_points (isScalar_points t), toWellFormed]

theorem encode_ofPoints (h : ∀ n ∈ l, IsScalar n) : encode (ofPoints l) = l.flatMap bytes := by
  rw [encode_points, (points_ofPoints h).2]

theorem encode_eq_nil : encode t = [] ↔ t = [] := by
  constructor
  · fun_cases encode t with
    | case1 => exact fun _ => rfl
    | case2 c => exact fun h => absurd h (bytes_ne_nil _)
    | case3 c d rest hcd =>
      exact fun h => absurd (append_eq_nil_iff.mp h).1 (bytes_ne_nil _)
    | case4 c d rest hcd =>
      exact fun h => absurd (append_eq_nil_iff.mp h).1 (bytes_ne_nil _)
  · rintro rfl
    rfl

/-- A byte within a character. -/
def isContinuation (b : UInt8) : Bool :=
  b &&& 0xC0 = 0x80

theorem isContinuation_last : ∀ n < 0x40, isContinuation (.ofNat (0x80 + n)) = true := by decide

theorem isContinuation_ascii : ∀ n < 0x80, isContinuation (.ofNat n) = false := by decide

theorem isContinuation_first : ∀ n < 0x40, isContinuation (.ofNat (0xC0 + n)) = false := by decide

theorem isContinuation_lead (hlow : 0xC0 ≤ n) (hhigh : n < 0x100) :
    isContinuation (.ofNat n) = false := by
  obtain ⟨m, rfl⟩ := Nat.exists_eq_add_of_le hlow
  exact isContinuation_first m (by omega)

theorem bytes_cases (h : IsScalar n) : ∃ b rest, bytes n = b :: rest ∧
    isContinuation b = false ∧ ∀ c ∈ rest, isContinuation c = true := by
  have hlast : ∀ m, isContinuation (.ofNat (0x80 + m % 0x40)) = true := fun m =>
    isContinuation_last _ (Nat.mod_lt _ (by omega))
  have hlt : n < 0x110000 := by
    unfold IsScalar at h
    omega
  unfold bytes
  split_ifs with h₁ h₂ h₃
  · exact ⟨_, [], rfl, isContinuation_ascii _ h₁, fun _ hc => by cases hc⟩
  · refine ⟨_, _, rfl, isContinuation_lead (by omega) (by omega), fun c hc => ?_⟩
    rw [mem_singleton.mp hc]
    exact hlast n
  · refine ⟨_, _, rfl, isContinuation_lead (by omega) (by omega), fun c hc => ?_⟩
    rcases mem_cons.mp hc with rfl | hc
    · exact hlast _
    · rw [mem_singleton.mp hc]
      exact hlast n
  · refine ⟨_, _, rfl, isContinuation_lead (by omega) (by omega), fun c hc => ?_⟩
    rcases mem_cons.mp hc with rfl | hc
    · exact hlast _
    · rcases mem_cons.mp hc with rfl | hc
      · exact hlast _
      · rw [mem_singleton.mp hc]
        exact hlast n

theorem drop_points (h : ∀ n ∈ l, IsScalar n) {i : ℕ}
    (hi : ∀ b, (l.flatMap bytes)[i]? = some b → isContinuation b = false) :
    ∃ k, (l.flatMap bytes).drop i = (l.drop k).flatMap bytes := by
  induction l generalizing i with
  | nil => exact ⟨0, drop_nil⟩
  | cons n l ih =>
    rw [flatMap_cons] at hi ⊢
    by_cases hlt : i < (bytes n).length
    · obtain ⟨b, rest, hbytes, -, hrest⟩ := bytes_cases (h n mem_cons_self)
      rw [getElem?_append_left hlt] at hi
      cases i with
      | zero => exact ⟨0, by rw [drop_zero, drop_zero, flatMap_cons]⟩
      | succ i =>
        rw [hbytes, length_cons] at hlt
        rw [hbytes, getElem?_cons_succ, getElem?_eq_getElem (by omega)] at hi
        have hnot := hi _ rfl
        rw [hrest _ (getElem_mem _)] at hnot
        cases hnot
    · rw [getElem?_append_right (not_lt.mp hlt)] at hi
      obtain ⟨k, hk⟩ := ih (fun m hm => h m (mem_cons_of_mem n hm)) hi
      refine ⟨k + 1, ?_⟩
      rw [drop_append, drop_eq_nil_of_le (not_lt.mp hlt), nil_append, hk, drop_succ_cons]

theorem encode_decode_drop (t : Text) {i : ℕ}
    (hi : ∀ b, (encode t)[i]? = some b → isContinuation b = false) :
    encode (decode ((encode t).drop i)) = (encode t).drop i := by
  rw [encode_points t] at hi ⊢
  obtain ⟨k, hk⟩ := drop_points (isScalar_points t) hi
  have hscalar : ∀ n ∈ (points t).drop k, IsScalar n := fun n hn =>
    isScalar_points t n (mem_of_mem_drop hn)
  rw [hk, decode_points hscalar, encode_ofPoints hscalar]

/-! ### Line feeds -/

theorem ofNat_beq_newline (hlt : n < 0x100) (hne : n ≠ 10) : (UInt8.ofNat n == 10) = false := by
  rw [beq_eq_false_iff_ne]
  intro h
  have hnat := congrArg UInt8.toNat h
  rw [toNat_ofNat hlt] at hnat
  exact hne hnat

theorem bytes_newline (h : IsScalar n) (hne : n ≠ 10) : ∀ b ∈ bytes n, (b == 10) = false := by
  have hlt : n < 0x110000 := by
    unfold IsScalar at h
    omega
  intro b hb
  unfold bytes at hb
  split_ifs at hb <;> simp only [mem_cons, not_mem_nil, or_false] at hb
  · rw [hb]
    exact ofNat_beq_newline (by omega) hne
  · rcases hb with rfl | rfl <;> exact ofNat_beq_newline (by omega) (by omega)
  · rcases hb with rfl | rfl | rfl <;> exact ofNat_beq_newline (by omega) (by omega)
  · rcases hb with rfl | rfl | rfl | rfl <;> exact ofNat_beq_newline (by omega) (by omega)

theorem count_bytes (h : IsScalar n) : (bytes n).count 10 = if n = 10 then 1 else 0 := by
  split_ifs with hten
  · rw [hten]
    rfl
  · rw [count_eq_zero]
    intro hmem
    have hnot := bytes_newline h hten _ hmem
    cases hnot

theorem getLast_bytes (h : IsScalar n) : (bytes n).getLast? = some 10 ↔ n = 10 := by
  constructor
  · intro hlast
    by_contra hne
    have hnot := bytes_newline h hne _ (mem_of_getLast? hlast)
    cases hnot
  · rintro rfl
    rfl

theorem lone_newline (c : UInt16) : lone c = 10 ↔ c = 10 := by
  unfold lone
  split_ifs with hc
  · refine iff_of_false (by decide) ?_
    rintro rfl
    exact absurd hc (by decide)
  · exact ⟨fun h => UInt16.toNat_inj.mp h, fun h => congrArg UInt16.toNat h⟩

theorem isScalar_lone' (c : UInt16) : IsScalar (lone c) := by
  have hmem : lone c ∈ points [c] := by
    rw [points]
    exact mem_singleton_self _
  exact isScalar_points [c] _ hmem

theorem count_encode (t : Text) : (encode t).count 10 = t.count 10 := by
  have hone : ∀ c, (bytes (lone c)).count 10 = if c = 10 then 1 else 0 := by
    intro c
    rw [count_bytes (isScalar_lone' c)]
    simp only [lone_newline]
  fun_induction encode t with
  | case1 => rfl
  | case2 c =>
    rw [hone, count_cons, count_nil, zero_add]
    simp only [beq_iff_eq]
  | case3 c d rest hcd ih =>
    obtain ⟨hc, hd⟩ := Bool.and_eq_true_iff.mp hcd
    have hpair : pair c d ≠ 10 := by
      unfold pair
      omega
    have hcne : (c == 10) = false := beq_false_of_ne fun h => by
      rw [h] at hc
      exact absurd hc (by decide)
    have hdne : (d == 10) = false := beq_false_of_ne fun h => by
      rw [h] at hd
      exact absurd hd (by decide)
    rw [count_append, ih, count_bytes (isScalar_pair hc hd).1, if_neg hpair, count_cons,
      count_cons, hcne, hdne]
    simp only [Bool.false_eq_true, if_false, zero_add, add_zero]
  | case4 c d rest hcd ih =>
    rw [count_append, ih, hone, count_cons (b := c), add_comm]
    simp only [beq_iff_eq]

theorem getLast_encode (t : Text) : (encode t).getLast? = some 10 ↔ t.getLast? = some 10 := by
  fun_induction encode t with
  | case1 => exact iff_of_false (fun h => by cases h) (fun h => by cases h)
  | case2 c =>
    rw [getLast_bytes (isScalar_lone' c), lone_newline, getLast?_singleton, Option.some.injEq]
  | case3 c d rest hcd ih =>
    obtain ⟨hc, hd⟩ := Bool.and_eq_true_iff.mp hcd
    rcases eq_or_ne rest [] with rfl | hne
    · have hpair : pair c d ≠ 10 := by
        unfold pair
        omega
      have hdne : d ≠ 10 := fun h => by
        rw [h] at hd
        exact absurd hd (by decide)
      rw [encode, append_nil, getLast_bytes (isScalar_pair hc hd).1]
      refine iff_of_false hpair fun h => hdne ?_
      exact Option.some.inj h
    · rw [getLast?_append_of_ne_nil _ (fun h => hne (encode_eq_nil.mp h)), ih,
        getLast?_cons_cons, getLast?_cons, getLast?_eq_some_getLast hne]
      rfl
  | case4 c d rest hcd ih =>
    rw [getLast?_append_of_ne_nil _ (fun h => cons_ne_nil _ _ (encode_eq_nil.mp h)), ih,
      getLast?_cons_cons]

/-! ### Texts one after another -/

/-- A text does not begin or end within a surrogate pair. -/
structure Whole (t : Text) : Prop where
  head : ∀ d, t.head? = some d → isTrail d = false
  last : ∀ c, t.getLast? = some c → isLead c = false

instance (t : Text) : Decidable (Whole t) :=
  decidable_of_iff (t.head?.any isTrail = false ∧ t.getLast?.any isLead = false) <| by
    rw [Option.any_eq_false, Option.any_eq_false]
    exact ⟨fun h => ⟨h.1, h.2⟩, fun h => ⟨h.head, h.last⟩⟩

theorem whole_nil : Whole [] :=
  ⟨fun _ h => (by cases h), fun _ h => (by cases h)⟩

theorem encode_append_apart {u : Text} (h : ∀ c d, t.getLast? = some c → u.head? = some d →
    (isLead c && isTrail d) = false) : encode (t ++ u) = encode t ++ encode u := by
  fun_induction encode t with
  | case1 => rfl
  | case2 c =>
    cases u with
    | nil =>
      rw [append_nil, encode, encode, append_nil]
    | cons d u =>
      have hnot := h c d rfl rfl
      rw [singleton_append, encode, if_neg (by rw [hnot]; exact Bool.false_ne_true)]
  | case3 c d rest hcd ih =>
    rw [cons_append, cons_append, encode, if_pos hcd, ih, append_assoc]
    intro c' d' hlast hhead
    refine h c' d' ?_ hhead
    rw [getLast?_cons_cons, getLast?_cons, hlast]
    rfl
  | case4 c d rest hcd ih =>
    rw [cons_append, cons_append, encode, if_neg hcd, ← cons_append, ih, append_assoc]
    intro c' d' hlast hhead
    exact h c' d' (by rw [getLast?_cons_cons]; exact hlast) hhead

theorem encode_append_whole {u : Text} (h : Whole u) : encode (t ++ u) = encode t ++ encode u :=
  encode_append_apart fun c d _ hd => by rw [h.head d hd, Bool.and_false]

theorem whole_append {u : Text} (h : Whole t) (h' : Whole u) : Whole (t ++ u) := by
  rcases eq_or_ne t [] with rfl | ht
  · exact h'
  rcases eq_or_ne u [] with rfl | hu
  · rw [append_nil]
    exact h
  · refine ⟨fun d hd => h.head d ?_, fun c hc => h'.last c ?_⟩
    · rw [head?_append_of_ne_nil _ ht] at hd
      exact hd
    · rw [getLast?_append_of_ne_nil _ hu] at hc
      exact hc

theorem whole_units (h : IsScalar n) : Whole (units n) := by
  unfold units
  split_ifs with hn
  · obtain ⟨hlead, htrail⟩ := Bool.or_eq_false_iff.mp (lone_ofNat h hn).1
    refine ⟨fun d hd => ?_, fun c hc => ?_⟩
    · rw [← Option.some.inj hd]
      exact htrail
    · rw [← Option.some.inj hc]
      exact hlead
  · obtain ⟨hlead, htrail⟩ := Bool.and_eq_true_iff.mp (pair_ofNat h hn).1
    have hnot : ∀ c, isLead c = true → isTrail c = false := by
      intro c hc
      rw [isLead_iff] at hc
      rw [Bool.eq_false_iff, Ne, isTrail_iff]
      omega
    refine ⟨fun d hd => ?_, fun c hc => ?_⟩
    · rw [← Option.some.inj hd]
      exact hnot _ hlead
    · have hlast : trail n = c := Option.some.inj hc
      rw [← hlast]
      refine Bool.eq_false_iff.mpr fun hleadc => ?_
      rw [hnot _ hleadc] at htrail
      exact Bool.false_ne_true htrail

theorem WellFormed.whole (h : WellFormed t) : Whole t := by
  induction h using WellFormed.induction with
  | nil => exact whole_nil
  | cons n t hn ht ih =>
    have hunits := whole_units hn
    exact whole_append hunits ih

end Utf8
