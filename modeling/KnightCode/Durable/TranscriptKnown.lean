import KnightCode.Durable.Transcript
import Mathlib.Order.MinMax

/-!
# The known range of a client transcript

`Known E entries gaps low tail` states what the entries held, the gaps and the two bounds say
about the visible entries `E`: everything in (`low`, `tail`] is held or strictly inside a gap,
nothing is both, and gaps are ordered and disjoint. Each branch of `extend` keeps it when the
range it is told about is `Covered`, that is when `added` are exactly its entries.
-/

namespace KnightCode.Transcript

open List

variable {β : Type*} {E entries entries' added : List (EntryRecord β)} {gaps : List Gap}
  {low tail lo hi : Bound}
variable {n : ℤ}

/-- The IDs a gap stands for. -/
def Gap.Inside (g : Gap) (id : ℤ) : Prop := g.after < id ∧ id < g.upTo

instance (g : Gap) (id : ℤ) : Decidable (g.Inside id) :=
  inferInstanceAs (Decidable (_ ∧ _))

abbrev Increasing (entries : List (EntryRecord β)) : Prop :=
  entries.Pairwise (fun a b => a.id < b.id)

structure Known (E entries : List (EntryRecord β)) (gaps : List Gap) (low tail : Bound) :
    Prop where
  increasing : Increasing entries
  mem : ∀ x ∈ entries, x ∈ E ∧ low < (x.id : Bound) ∧ (x.id : Bound) ≤ tail
  complete : ∀ e ∈ E, low < (e.id : Bound) → (e.id : Bound) ≤ tail →
    e ∈ entries ∨ ∃ g ∈ gaps, g.Inside e.id
  outside : ∀ x ∈ entries, ∀ g ∈ gaps, ¬ g.Inside x.id
  within : ∀ g ∈ gaps, low ≤ (g.after : Bound) ∧ g.after + 1 < g.upTo ∧
    ((g.upTo - 1 : ℤ) : Bound) ≤ tail
  ordered : gaps.Pairwise (fun g h => g.upTo ≤ h.after + 1)
  low_le : low ≤ tail
  tail_known : tail = ⊥ ∨ ∃ e ∈ E, tail ≤ (e.id : Bound)
  bare : entries = [] → low = ⊥ ∨ ∃ e ∈ E, low = (e.id : Bound)
  ends : ∀ g ∈ gaps, (∃ e ∈ E, e.id = g.upTo - 1) ∨ ∃ x ∈ entries, x.id = g.upTo

/-- `added` are exactly the entries of `E` in (`lo`, `hi`], which lies within the transcript. -/
structure Covered (E : List (EntryRecord β)) (lo hi : Bound) (added : List (EntryRecord β)) :
    Prop where
  mem : ∀ e, e ∈ added ↔ e ∈ E ∧ lo < (e.id : Bound) ∧ (e.id : Bound) ≤ hi
  increasing : Increasing added
  le : lo ≤ hi
  known : hi = ⊥ ∨ ∃ e ∈ E, hi ≤ (e.id : Bound)

/-- The entries after a call of `cover`: those held before and those added, in ID order. -/
structure Joined (entries added entries' : List (EntryRecord β)) : Prop where
  increasing : Increasing entries'
  mem : ∀ x, x ∈ entries' ↔ x ∈ entries ∨ x ∈ added

theorem Joined.nil (hj : Joined entries added []) : entries = [] ∧ added = [] := by
  constructor
  · exact eq_nil_iff_forall_not_mem.mpr fun x hx =>
      not_mem_nil ((hj.mem x).mpr (.inl hx))
  · exact eq_nil_iff_forall_not_mem.mpr fun x hx =>
      not_mem_nil ((hj.mem x).mpr (.inr hx))

theorem Bound.cases (b : Bound) : b = ⊥ ∨ ∃ n : ℤ, b = (n : Bound) := by
  induction b using WithBot.recBotCoe with
  | bot => exact .inl rfl
  | coe n => exact .inr ⟨n, rfl⟩

@[simp] theorem idFromNumber_coe (n : ℤ) : idFromNumber (n : Bound) = n := rfl

theorem Known.tail_ne_bot (h : Known E entries gaps low tail)
    (hne : entries ≠ [] ∨ gaps ≠ []) : tail ≠ ⊥ := by
  rintro rfl
  rcases hne with hne | hne
  · obtain ⟨x, hx⟩ := exists_mem_of_ne_nil _ hne
    exact absurd (h.mem x hx).2.2 (by simp)
  · obtain ⟨g, hg⟩ := exists_mem_of_ne_nil _ hne
    exact absurd (h.within g hg).2.2 (by simp)

theorem known_empty (E : List (EntryRecord β)) : Known E [] [] ⊥ ⊥ where
  increasing := List.Pairwise.nil
  mem := by simp
  complete e _ _ h := by simp at h
  outside := by simp
  within := by simp
  ordered := List.Pairwise.nil
  low_le := le_rfl
  tail_known := .inl rfl
  bare _ := .inl rfl
  ends := by simp

theorem Known.grow (h : Known E entries gaps low tail) {e : EntryRecord β}
    (he : ∀ x ∈ E, x.id < e.id) : Known (E ++ [e]) entries gaps low tail where
  increasing := h.increasing
  mem x hx := ⟨mem_append_left _ (h.mem x hx).1, (h.mem x hx).2⟩
  complete x hx hlow htail := by
    rcases mem_append.mp hx with hx | hx
    · exact h.complete x hx hlow htail
    · obtain rfl := mem_singleton.mp hx
      rcases h.tail_known with hb | ⟨y, hy, hyt⟩
      · rw [hb] at htail
        simp at htail
      · have hlt := he y hy
        have hle := WithBot.coe_le_coe.mp (htail.trans hyt)
        omega
  outside := h.outside
  within := h.within
  ordered := h.ordered
  low_le := h.low_le
  tail_known := h.tail_known.imp_right fun ⟨y, hy, hyt⟩ => ⟨y, mem_append_left _ hy, hyt⟩
  bare hb := (h.bare hb).imp_right fun ⟨y, hy, hyl⟩ => ⟨y, mem_append_left _ hy, hyl⟩
  ends g hg := (h.ends g hg).imp_left fun ⟨y, hy, hyl⟩ => ⟨y, mem_append_left _ hy, hyl⟩

theorem Known.first (hc : Covered E lo hi added) (hj : Joined [] added entries') (hlo : tail ≤ lo)
    (hb : added = [] → lo = ⊥ ∨ ∃ e ∈ E, lo = (e.id : Bound)) :
    Known E entries' [] lo (max tail hi) := by
  have hmem : ∀ x, x ∈ entries' ↔ x ∈ added := fun x => by simp [hj.mem]
  have hmax : max tail hi = hi := max_eq_right (hlo.trans hc.le)
  rw [hmax]
  refine ⟨hj.increasing, ?_, ?_, by simp, by simp, List.Pairwise.nil, hc.le, hc.known, ?_, by simp⟩
  · intro x hx
    exact (hc.mem x).mp ((hmem x).mp hx)
  · intro e he hel heh
    exact .inl ((hmem e).mpr ((hc.mem e).mpr ⟨he, hel, heh⟩))
  · intro hnil
    subst hnil
    exact hb hj.nil.2

theorem Known.past (h : Known E entries gaps low tail) (hc : Covered E lo hi added)
    (hj : Joined entries added entries') (hne : entries ≠ [] ∨ gaps ≠ []) (hlt : tail < lo)
    (hb : added = [] → ∃ e ∈ E, lo = (e.id : Bound)) :
    Known E entries' (gaps ++ [gapOf tail ((added.head?.map idAsNumber).getD lo.succ)]) low hi := by
  obtain hbot | ⟨t, rfl⟩ := Bound.cases tail
  · exact absurd hbot (h.tail_ne_bot hne)
  obtain rfl | ⟨l, rfl⟩ := Bound.cases lo
  · exact absurd hlt (by simp)
  obtain rfl | ⟨n, rfl⟩ := Bound.cases hi
  · exact absurd hc.le (by simp)
  have htl : t < l := WithBot.coe_lt_coe.mp hlt
  have hln : l ≤ n := WithBot.coe_le_coe.mp hc.le
  have haddedlo : ∀ x ∈ added, l < x.id := fun x hx =>
    WithBot.coe_lt_coe.mp ((hc.mem x).mp hx).2.1
  have haddedhi : ∀ x ∈ added, x.id ≤ n := fun x hx =>
    WithBot.coe_le_coe.mp ((hc.mem x).mp hx).2.2
  have hheld : ∀ x ∈ entries, x.id ≤ t := fun x hx => WithBot.coe_le_coe.mp (h.mem x hx).2.2
  -- the gap ends at the first new entry, or right after the bound of an empty window
  obtain ⟨u, hu, hlu, hun, hua, hend⟩ : ∃ u : ℤ,
      gapOf t ((added.head?.map idAsNumber).getD (Bound.succ l)) = ⟨t, u⟩ ∧ l < u ∧ u ≤ n + 1 ∧
        (∀ x ∈ added, u ≤ x.id) ∧ ((∃ e ∈ E, e.id = u - 1) ∨ ∃ x ∈ added, x.id = u) := by
    cases added with
    | nil =>
      obtain ⟨e, he, hel⟩ := hb rfl
      have hel := WithBot.coe_inj.mp hel
      exact ⟨l + 1, rfl, by omega, by omega, by simp, .inl ⟨e, he, by omega⟩⟩
    | cons a as =>
      refine ⟨a.id, rfl, haddedlo a (by simp), by have := haddedhi a (by simp); omega, ?_,
        .inr ⟨a, by simp, rfl⟩⟩
      intro x hx
      rcases mem_cons.mp hx with rfl | hx
      · exact le_rfl
      · exact ((pairwise_cons.mp hc.increasing).1 x hx).le
  rw [hu]
  have hgap : ∀ g ∈ gaps, g.upTo - 1 ≤ t := fun g hg => WithBot.coe_le_coe.mp (h.within g hg).2.2
  refine ⟨hj.increasing, ?_, ?_, ?_, ?_, ?_, ?_, hc.known, ?_, ?_⟩
  · intro x hx
    rcases (hj.mem x).mp hx with hx | hx
    · have := hheld x hx
      exact ⟨(h.mem x hx).1, (h.mem x hx).2.1, WithBot.coe_le_coe.mpr (by omega)⟩
    · exact ⟨((hc.mem x).mp hx).1, (h.low_le.trans_lt hlt).trans ((hc.mem x).mp hx).2.1,
        ((hc.mem x).mp hx).2.2⟩
  · intro e he hel heh
    rcases le_or_gt e.id t with het | het
    · rcases h.complete e he hel (WithBot.coe_le_coe.mpr het) with hm | ⟨g, hg, hin⟩
      · exact .inl ((hj.mem e).mpr (.inl hm))
      · exact .inr ⟨g, mem_append_left _ hg, hin⟩
    · rcases le_or_gt e.id l with hel' | hel'
      · exact .inr ⟨⟨t, u⟩, by simp, ⟨het, by show e.id < u; omega⟩⟩
      · exact .inl ((hj.mem e).mpr
          (.inr ((hc.mem e).mpr ⟨he, WithBot.coe_lt_coe.mpr hel', heh⟩)))
  · intro x hx g hg hin
    obtain ⟨hin₁, hin₂⟩ := hin
    rcases mem_append.mp hg with hg | hg
    · rcases (hj.mem x).mp hx with hx | hx
      · exact h.outside x hx g hg ⟨hin₁, hin₂⟩
      · have := hgap g hg
        have := haddedlo x hx
        omega
    · obtain rfl := mem_singleton.mp hg
      rcases (hj.mem x).mp hx with hx | hx
      · have := hheld x hx
        simp only at hin₁
        omega
      · have := hua x hx
        simp only at hin₂
        omega
  · intro g hg
    rcases mem_append.mp hg with hg | hg
    · obtain ⟨h₁, h₂, h₃⟩ := h.within g hg
      have := hgap g hg
      exact ⟨h₁, h₂, WithBot.coe_le_coe.mpr (by omega)⟩
    · obtain rfl := mem_singleton.mp hg
      exact ⟨h.low_le, by show t + 1 < u; omega,
        WithBot.coe_le_coe.mpr (by show u - 1 ≤ n; omega)⟩
  · rw [pairwise_append]
    refine ⟨h.ordered, pairwise_singleton _ _, ?_⟩
    intro g hg g' hg'
    obtain rfl := mem_singleton.mp hg'
    have := hgap g hg
    show g.upTo ≤ t + 1
    omega
  · exact h.low_le.trans (WithBot.coe_le_coe.mpr (by omega))
  · intro hnil
    subst hnil
    exact h.bare hj.nil.1
  · intro g hg
    rcases mem_append.mp hg with hg | hg
    · exact (h.ends g hg).imp_right fun ⟨x, hx, hxu⟩ => ⟨x, (hj.mem x).mpr (.inl hx), hxu⟩
    · obtain rfl := mem_singleton.mp hg
      exact hend.imp_right fun ⟨x, hx, hxu⟩ => ⟨x, (hj.mem x).mpr (.inr hx), hxu⟩

/-- A range below the oldest known ID: what lies between is missing. The new gap reaches up to
the oldest entry held, so nothing else may be missing below that entry. -/
theorem Known.below (h : Known E entries gaps low tail) (hc : Covered E lo hi added)
    (hj : Joined entries added entries') (hhi : hi ≠ ⊥) (hlt : hi < low)
    (hb : added = [] → lo = ⊥ ∨ ∃ e ∈ E, lo = (e.id : Bound))
    (hok : ∀ g ∈ gaps.head?, entries = [] ∨ ∃ x ∈ entries, x.id ≤ g.after) :
    Known E entries'
      (gapOf hi (((entries.find? (fun e => hi < (e.id : Bound))).map idAsNumber).getD low.succ) ::
        gaps) lo tail := by
  obtain rfl | ⟨n, rfl⟩ := Bound.cases hi
  · exact absurd rfl hhi
  obtain rfl | ⟨l, rfl⟩ := Bound.cases low
  · exact absurd hlt (by simp)
  obtain rfl | ⟨t, rfl⟩ := Bound.cases tail
  · exact absurd h.low_le (by simp)
  have hnl : n < l := WithBot.coe_lt_coe.mp hlt
  have hlt' : l ≤ t := WithBot.coe_le_coe.mp h.low_le
  have hadded : ∀ x ∈ added, x.id ≤ n := fun x hx =>
    WithBot.coe_le_coe.mp ((hc.mem x).mp hx).2.2
  have hheld : ∀ x ∈ entries, l < x.id ∧ x.id ≤ t := fun x hx =>
    ⟨WithBot.coe_lt_coe.mp (h.mem x hx).2.1, WithBot.coe_le_coe.mp (h.mem x hx).2.2⟩
  have hgap : ∀ g ∈ gaps, l ≤ g.after ∧ g.after + 1 < g.upTo := fun g hg =>
    ⟨WithBot.coe_le_coe.mp (h.within g hg).1, (h.within g hg).2.1⟩
  have hfirst : ∀ g ∈ gaps, entries = [] ∨ ∃ x ∈ entries, x.id ≤ g.after := by
    intro g hg
    cases gaps with
    | nil => cases hg
    | cons g₀ gs =>
      refine (hok g₀ (by simp)).imp_right fun ⟨x, hx, hxg⟩ => ⟨x, hx, ?_⟩
      rcases mem_cons.mp hg with rfl | hg'
      · exact hxg
      · have := (pairwise_cons.mp h.ordered).1 g hg'
        have := (hgap g₀ (by simp)).2
        omega
  obtain ⟨u, hu, hlu, hut, hux, hug, hend⟩ : ∃ u : ℤ,
      gapOf n (((entries.find? (fun e => (n : Bound) < (e.id : Bound))).map idAsNumber).getD
        (Bound.succ l)) = ⟨n, u⟩ ∧ l < u ∧ u ≤ t + 1 ∧ (∀ x ∈ entries, u ≤ x.id) ∧
        (∀ g ∈ gaps, u ≤ g.after + 1) ∧
        ((∃ e ∈ E, e.id = u - 1) ∨ ∃ x ∈ entries, x.id = u) := by
    cases entries with
    | nil =>
      refine ⟨l + 1, rfl, by omega, by omega, by simp, fun g hg => ?_, .inl ?_⟩
      · have := (hgap g hg).1
        omega
      · rcases h.bare rfl with hbot | ⟨e, he, hel⟩
        · simp at hbot
        · have hel := WithBot.coe_inj.mp hel
          exact ⟨e, he, by omega⟩
    | cons a as =>
      have hal := hheld a (by simp)
      have hfind : (a :: as).find? (fun e => (n : Bound) < (e.id : Bound)) = some a := by
        rw [find?_cons_of_pos]
        exact decide_eq_true (WithBot.coe_lt_coe.mpr (by omega))
      have hmin : ∀ x ∈ a :: as, a.id ≤ x.id := by
        intro x hx
        rcases mem_cons.mp hx with rfl | hx
        · exact le_rfl
        · exact ((pairwise_cons.mp h.increasing).1 x hx).le
      refine ⟨a.id, by rw [hfind]; rfl, hal.1, by omega, hmin, fun g hg => ?_,
        .inr ⟨a, by simp, rfl⟩⟩
      rcases hfirst g hg with hnil | ⟨x, hx, hxg⟩
      · cases hnil
      · have := hmin x hx
        omega
  rw [hu]
  refine ⟨hj.increasing, ?_, ?_, ?_, ?_, ?_, ?_, h.tail_known, ?_, ?_⟩
  · intro x hx
    rcases (hj.mem x).mp hx with hx | hx
    · exact ⟨(h.mem x hx).1, (hc.le.trans_lt hlt).trans (h.mem x hx).2.1, (h.mem x hx).2.2⟩
    · have := hadded x hx
      exact ⟨((hc.mem x).mp hx).1, ((hc.mem x).mp hx).2.1, WithBot.coe_le_coe.mpr (by omega)⟩
  · intro e he hel heh
    rcases le_or_gt e.id n with hen | hen
    · exact .inl ((hj.mem e).mpr
        (.inr ((hc.mem e).mpr ⟨he, hel, WithBot.coe_le_coe.mpr hen⟩)))
    · rcases le_or_gt e.id l with hel' | hel'
      · exact .inr ⟨⟨n, u⟩, by simp, ⟨hen, by show e.id < u; omega⟩⟩
      · rcases h.complete e he (WithBot.coe_lt_coe.mpr hel') heh with hm | ⟨g, hg, hin⟩
        · exact .inl ((hj.mem e).mpr (.inl hm))
        · exact .inr ⟨g, mem_cons_of_mem _ hg, hin⟩
  · intro x hx g hg hin
    obtain ⟨hin₁, hin₂⟩ := hin
    rcases mem_cons.mp hg with rfl | hg <;> rcases (hj.mem x).mp hx with hx | hx
    · have := hux x hx
      simp only at hin₂
      omega
    · have := hadded x hx
      simp only at hin₁
      omega
    · exact h.outside x hx g hg ⟨hin₁, hin₂⟩
    · have := hadded x hx
      have := (hgap g hg).1
      omega
  · intro g hg
    rcases mem_cons.mp hg with rfl | hg
    · exact ⟨hc.le, by show n + 1 < u; omega, WithBot.coe_le_coe.mpr (by show u - 1 ≤ t; omega)⟩
    · exact ⟨(hc.le.trans hlt.le).trans (h.within g hg).1, (h.within g hg).2⟩
  · exact pairwise_cons.mpr ⟨hug, h.ordered⟩
  · exact (hc.le.trans hlt.le).trans h.low_le
  · intro hnil
    subst hnil
    exact hb hj.nil.2
  · intro g hg
    rcases mem_cons.mp hg with rfl | hg
    · exact hend.imp_right fun ⟨x, hx, hxu⟩ => ⟨x, (hj.mem x).mpr (.inl hx), hxu⟩
    · exact (h.ends g hg).imp_right fun ⟨x, hx, hxu⟩ => ⟨x, (hj.mem x).mpr (.inl hx), hxu⟩

/-- What `subtractGap` leaves of a gap, once the range is known to be covered. -/
structure Cut (E entries' : List (EntryRecord β)) (lo hi : Bound) (g : Gap)
    (pieces : List Gap) : Prop where
  sub : ∀ p ∈ pieces, g.after ≤ p.after ∧ p.after + 1 < p.upTo ∧ p.upTo ≤ g.upTo
  outside : ∀ p ∈ pieces, ∀ e ∈ E, lo < (e.id : Bound) → (e.id : Bound) ≤ hi → ¬ p.Inside e.id
  complete : ∀ e ∈ E, g.Inside e.id → ¬ (lo < (e.id : Bound) ∧ (e.id : Bound) ≤ hi) →
    ∃ p ∈ pieces, p.Inside e.id
  ordered : pieces.Pairwise (fun p q => p.upTo ≤ q.after + 1)
  ends : ∀ p ∈ pieces, p.upTo = g.upTo ∨ ∃ x ∈ entries', x.id = p.upTo

theorem find_first (hs : Increasing entries) {m : Bound} (hex : ∃ x ∈ entries, m < (x.id : Bound)) :
    ∃ a ∈ entries, entries.find? (fun e => m < (e.id : Bound)) = some a ∧ m < (a.id : Bound) ∧
      ∀ x ∈ entries, m < (x.id : Bound) → a.id ≤ x.id := by
  induction entries with
  | nil => simp at hex
  | cons b bs ih =>
    by_cases hb : m < (b.id : Bound)
    · refine ⟨b, by simp, by simp [hb], hb, ?_⟩
      intro x hx _
      rcases mem_cons.mp hx with rfl | hx
      · exact le_rfl
      · exact ((pairwise_cons.mp hs).1 x hx).le
    · have hex' : ∃ x ∈ bs, m < (x.id : Bound) := by
        obtain ⟨x, hx, hmx⟩ := hex
        rcases mem_cons.mp hx with rfl | hx
        · exact absurd hmx hb
        · exact ⟨x, hx, hmx⟩
      obtain ⟨a, ha, hfind, hma, hmin⟩ := ih (pairwise_cons.mp hs).2 hex'
      refine ⟨a, mem_cons_of_mem _ ha, by simpa [hb] using hfind, hma, ?_⟩
      intro x hx hmx
      rcases mem_cons.mp hx with rfl | hx
      · exact absurd hmx hb
      · exact hmin x hx hmx

/-- What lies above the range is left whole. -/
def upper (n : ℤ) (g : Gap) : List Gap :=
  if (n + 1 : ℤ) < g.upTo then [⟨n, g.upTo⟩] else []

variable {g : Gap}

theorem mem_upper {p : Gap} : p ∈ upper n g ↔ p = ⟨n, g.upTo⟩ ∧ n + 1 < g.upTo := by
  unfold upper
  split_ifs with h <;> simp [h]

theorem pairwise_upper (n : ℤ) (g : Gap) :
    (upper n g).Pairwise (fun p q => p.upTo ≤ q.after + 1) := by
  unfold upper
  split_ifs <;> simp

variable {l : Bound}

theorem subtractGap_apart (h : n ≤ g.after ∨ (g.upTo : Bound) ≤ l.succ) :
    subtractGap entries' l n g = none := by
  unfold subtractGap
  rw [if_pos]
  exact h.imp_left WithBot.coe_le_coe.mpr

theorem subtractGap_above (hn : g.after < n) (hu : ¬ (g.upTo : Bound) ≤ l.succ)
    (hl : ¬ (g.after : Bound) < l) : subtractGap entries' l n g = some (upper n g) := by
  unfold subtractGap upper
  rw [if_neg (by rw [not_or]; exact ⟨not_le.mpr (WithBot.coe_lt_coe.mpr hn), hu⟩)]
  dsimp only
  rw [if_neg hl, Bound.succ_coe]
  simp only [WithBot.coe_lt_coe, nil_append]
  rfl

theorem subtractGap_inside {m : ℤ} {a : EntryRecord β} (hn : g.after < n) (hu : m + 1 < g.upTo)
    (hm : g.after < m) (ha : entries'.find? (fun e => (m : Bound) < (e.id : Bound)) = some a) :
    subtractGap entries' m n g = some (⟨g.after, min g.upTo a.id⟩ :: upper n g) := by
  unfold subtractGap upper
  rw [if_neg]
  · dsimp only
    rw [if_pos (WithBot.coe_lt_coe.mpr hm), Bound.succ_coe, Bound.succ_coe, ha]
    simp only [WithBot.coe_lt_coe]
    rfl
  · rw [not_or, Bound.succ_coe, not_le, not_le]
    exact ⟨WithBot.coe_lt_coe.mpr hn, WithBot.coe_lt_coe.mpr hu⟩

theorem cut_apart (hg : g.after + 1 < g.upTo) (h : n ≤ g.after ∨ (g.upTo : Bound) ≤ l.succ) :
    Cut E entries' l n g [g] where
  sub := by simp [hg]
  outside p hp e _ hel heh hin := by
    obtain rfl := mem_singleton.mp hp
    obtain ⟨hin₁, hin₂⟩ := hin
    have hen := WithBot.coe_le_coe.mp heh
    rcases h with hm | hm
    · omega
    · obtain rfl | ⟨m, rfl⟩ := Bound.cases l
      · simp at hm
      · rw [Bound.succ_coe] at hm
        have hm := WithBot.coe_le_coe.mp hm
        have := WithBot.coe_lt_coe.mp hel
        omega
  complete e _ hin _ := ⟨g, by simp, hin⟩
  ordered := pairwise_singleton _ _
  ends := by simp

theorem cut_upper (hn : g.after < n) (hl : ¬ (g.after : Bound) < l) :
    Cut E entries' l n g (upper n g) where
  sub p hp := by
    obtain ⟨rfl, hup⟩ := mem_upper.mp hp
    exact ⟨hn.le, hup, le_rfl⟩
  outside p hp e _ _ heh hin := by
    obtain ⟨rfl, _⟩ := mem_upper.mp hp
    have := WithBot.coe_le_coe.mp heh
    have : n < e.id := hin.1
    omega
  complete e _ hin hout := by
    have hne : n < e.id := by
      by_contra hne
      refine hout ⟨?_, WithBot.coe_le_coe.mpr (not_lt.mp hne)⟩
      exact (not_lt.mp hl).trans_lt (WithBot.coe_lt_coe.mpr hin.1)
    have hup : e.id < g.upTo := hin.2
    exact ⟨⟨n, g.upTo⟩, mem_upper.mpr ⟨rfl, by omega⟩, hne, hup⟩
  ordered := pairwise_upper n g
  ends p hp := by
    obtain ⟨rfl, _⟩ := mem_upper.mp hp
    exact .inl rfl

theorem cut_inside {m n : ℤ} {g : Gap} {a : EntryRecord β} (ha : a ∈ entries')
    (hgm : g.after < m) (hmv : m < a.id) (hvn : a.id ≤ n)
    (hup : m + 1 < g.upTo) (hv : ∀ e ∈ E, m < e.id → a.id ≤ e.id) :
    Cut E entries' m n g (⟨g.after, min g.upTo a.id⟩ :: upper n g) where
  sub p hp := by
    rcases mem_cons.mp hp with rfl | hp
    · refine ⟨le_rfl, ?_, min_le_left _ _⟩
      show g.after + 1 < min g.upTo a.id
      omega
    · obtain ⟨rfl, hup⟩ := mem_upper.mp hp
      exact ⟨by show g.after ≤ n; omega, hup, le_rfl⟩
  outside p hp e he hel heh hin := by
    have hel := WithBot.coe_lt_coe.mp hel
    have heh := WithBot.coe_le_coe.mp heh
    obtain ⟨hin₁, hin₂⟩ := hin
    rcases mem_cons.mp hp with rfl | hp
    · have := hv e he hel
      simp only at hin₂
      omega
    · obtain ⟨rfl, _⟩ := mem_upper.mp hp
      simp only at hin₁
      omega
  complete e _ hin hout := by
    obtain ⟨hin₁, hin₂⟩ := hin
    rcases le_or_gt e.id m with hem | hem
    · refine ⟨⟨g.after, min g.upTo a.id⟩, by simp, hin₁, ?_⟩
      show e.id < min g.upTo a.id
      omega
    · have hne : n < e.id := by
        by_contra hne
        exact hout ⟨WithBot.coe_lt_coe.mpr hem, WithBot.coe_le_coe.mpr (not_lt.mp hne)⟩
      refine ⟨⟨n, g.upTo⟩, mem_cons_of_mem _ (mem_upper.mpr ⟨rfl, by omega⟩), hne, hin₂⟩
  ordered := by
    refine pairwise_cons.mpr ⟨?_, pairwise_upper n g⟩
    intro q hq
    obtain ⟨rfl, _⟩ := mem_upper.mp hq
    show min g.upTo a.id ≤ n + 1
    omega
  ends p hp := by
    rcases mem_cons.mp hp with rfl | hp
    · rcases min_choice g.upTo a.id with hm | hm
      · exact .inl hm
      · exact .inr ⟨a, ha, hm.symm⟩
    · obtain ⟨rfl, _⟩ := mem_upper.mp hp
      exact .inl rfl

theorem cut_bare {m : ℤ} (hg : g.after + 1 < g.upTo) (hup : g.upTo ≤ n + 1)
    (hE : ∀ e ∈ E, ¬ ((m : Bound) < (e.id : Bound) ∧ (e.id : Bound) ≤ (n : Bound))) :
    Cut E entries' m n g (g :: upper n g) := by
  have hnil : upper n g = [] := by
    unfold upper
    rw [if_neg (by omega)]
  rw [hnil]
  refine ⟨by simp [hg], ?_, fun e _ hin _ => ⟨g, by simp, hin⟩, pairwise_singleton _ _,
    by simp⟩
  intro p _ e he hel heh
  exact absurd ⟨hel, heh⟩ (hE e he)

/-- The range does not cut off the start of a gap, or it reaches past the gap's end. -/
def Reaches (entries : List (EntryRecord β)) (lo hi : Bound) (g : Gap) : Prop :=
  (g.after : Bound) < lo → (g.upTo : Bound) ≤ lo.succ ∨
    (g.upTo : Bound) ≤ hi.succ ∧ ∃ x ∈ entries, lo < (x.id : Bound)

theorem cut_subtractGap (hg : g.after + 1 < g.upTo) (hc : Covered E l n added)
    (hj : Joined entries added entries') (hout : ∀ x ∈ entries, ¬ g.Inside x.id)
    (hstr : added = [] → Reaches entries l n g) :
    Cut E entries' l n g ((subtractGap entries' l n g).getD [g]) := by
  by_cases hapart : n ≤ g.after ∨ (g.upTo : Bound) ≤ l.succ
  · rw [subtractGap_apart hapart]
    exact cut_apart hg hapart
  rw [not_or, not_le] at hapart
  by_cases hafter : (g.after : Bound) < l
  · obtain rfl | ⟨m, rfl⟩ := Bound.cases l
    · simp at hafter
    have hgm : g.after < m := WithBot.coe_lt_coe.mp hafter
    have hmu : m + 1 < g.upTo := WithBot.coe_lt_coe.mp (not_le.mp hapart.2)
    have hafter' : ∃ x ∈ entries', (m : Bound) < (x.id : Bound) := by
      by_cases hnil : added = []
      · obtain hs | ⟨_, x, hx, hmx⟩ := hstr hnil hafter
        · exact absurd hs hapart.2
        · exact ⟨x, (hj.mem x).mpr (.inl hx), hmx⟩
      · obtain ⟨x, hx⟩ := exists_mem_of_ne_nil _ hnil
        exact ⟨x, (hj.mem x).mpr (.inr hx), ((hc.mem x).mp hx).2.1⟩
    obtain ⟨a, ha, hfind, hma, hmin⟩ := find_first hj.increasing hafter'
    rw [subtractGap_inside hapart.1 hmu hgm hfind, Option.getD_some]
    by_cases hnil : added = []
    · obtain hs | ⟨hs, _⟩ := hstr hnil hafter
      · exact absurd hs hapart.2
      have hau : g.upTo ≤ a.id := by
        have haheld : a ∈ entries := by simpa [hnil] using (hj.mem a).mp ha
        have hma := WithBot.coe_lt_coe.mp hma
        by_contra hlt
        exact hout a haheld ⟨by omega, not_le.mp hlt⟩
      rw [min_eq_left hau]
      refine cut_bare hg (WithBot.coe_le_coe.mp hs) fun e he hr => ?_
      have := (hc.mem e).mpr ⟨he, hr⟩
      rw [hnil] at this
      cases this
    · obtain ⟨x, hx⟩ := exists_mem_of_ne_nil _ hnil
      have hxr := (hc.mem x).mp hx
      have hax : a.id ≤ x.id := hmin x ((hj.mem x).mpr (.inr hx)) hxr.2.1
      have han : a.id ≤ n := hax.trans (WithBot.coe_le_coe.mp hxr.2.2)
      refine cut_inside ha hgm (WithBot.coe_lt_coe.mp hma) han hmu ?_
      intro e he hme
      rcases le_or_gt e.id n with hen | hen
      · have hadd := (hc.mem e).mpr
          ⟨he, WithBot.coe_lt_coe.mpr hme, WithBot.coe_le_coe.mpr hen⟩
        exact hmin e ((hj.mem e).mpr (.inr hadd)) (WithBot.coe_lt_coe.mpr hme)
      · omega
  · rw [subtractGap_above hapart.1 hapart.2 hafter]
    exact cut_upper hapart.1 hafter

theorem Known.meet (h : Known E entries gaps low tail) (hc : Covered E lo hi added)
    (hj : Joined entries added entries') (hlo : lo ≤ tail) (hhi : hi = ⊥ ∨ low ≤ hi)
    (hb : added = [] → lo = ⊥ ∨ (∃ e ∈ E, lo = (e.id : Bound)) ∨ low ≤ lo)
    (hok : hi = ⊥ → ∀ e ∈ E, low < (e.id : Bound))
    (hstr : added = [] → lo < hi → ∀ g ∈ gaps, Reaches entries lo hi g) :
    Known E entries' (subtract entries' gaps lo hi).1 (min lo low) (max tail hi) := by
  have hE : ∀ x ∈ entries, x ∈ E := fun x hx => (h.mem x hx).1
  obtain ⟨cut, hcut, hspec⟩ : ∃ cut : Gap → List Gap,
      (subtract entries' gaps lo hi).1 = gaps.flatMap cut ∧
        ∀ g ∈ gaps, Cut E entries' lo hi g (cut g) := by
    unfold subtract
    split_ifs with hle
    · refine ⟨fun g => [g], by simp, ?_⟩
      intro g hg
      refine ⟨by simp [(h.within g hg).2.1], ?_, fun e _ hin _ => ⟨g, by simp, hin⟩,
        pairwise_singleton _ _, by simp⟩
      intro p _ e _ hel heh
      exact absurd (hel.trans_le heh) (not_lt.mpr hle)
    · obtain rfl | ⟨n, rfl⟩ := Bound.cases hi
      · simp at hle
      refine ⟨_, rfl, ?_⟩
      intro g hg
      exact cut_subtractGap (h.within g hg).2.1 hc hj (fun x hx => h.outside x hx g hg)
        (fun hnil => hstr hnil (not_le.mp hle) g hg)
  rw [hcut]
  have hmax : max tail hi = ⊥ ∨ ∃ e ∈ E, max tail hi ≤ (e.id : Bound) := by
    rcases le_total tail hi with hle | hle
    · rw [max_eq_right hle]
      exact hc.known
    · rw [max_eq_left hle]
      exact h.tail_known
  refine ⟨hj.increasing, ?_, ?_, ?_, ?_, ?_, ?_, hmax, ?_, ?_⟩
  · intro x hx
    rcases (hj.mem x).mp hx with hx | hx
    · exact ⟨hE x hx, (min_le_right _ _).trans_lt (h.mem x hx).2.1,
        (h.mem x hx).2.2.trans (le_max_left _ _)⟩
    · have hxr := (hc.mem x).mp hx
      exact ⟨hxr.1, (min_le_left _ _).trans_lt hxr.2.1, hxr.2.2.trans (le_max_right _ _)⟩
  · intro e he hel heh
    by_cases hin : lo < (e.id : Bound) ∧ (e.id : Bound) ≤ hi
    · exact .inl ((hj.mem e).mpr (.inr ((hc.mem e).mpr ⟨he, hin⟩)))
    have hlow : low < (e.id : Bound) := by
      rcases hhi with hbot | hhi
      · exact hok hbot e he
      rcases lt_or_ge low (e.id : Bound) with hlt | hge
      · exact hlt
      · rcases min_lt_iff.mp hel with h' | h'
        · exact absurd ⟨h', hge.trans hhi⟩ hin
        · exact h'
    have htail : (e.id : Bound) ≤ tail := by
      rcases le_max_iff.mp heh with h' | h'
      · exact h'
      · rcases lt_or_ge lo (e.id : Bound) with hlt | hge
        · exact absurd ⟨hlt, h'⟩ hin
        · exact hge.trans hlo
    rcases h.complete e he hlow htail with hm | ⟨g, hg, hing⟩
    · exact .inl ((hj.mem e).mpr (.inl hm))
    · obtain ⟨p, hp, hinp⟩ := (hspec g hg).complete e he hing hin
      exact .inr ⟨p, mem_flatMap.mpr ⟨g, hg, hp⟩, hinp⟩
  · intro x hx p hp hin
    obtain ⟨g, hg, hp⟩ := mem_flatMap.mp hp
    obtain ⟨hsub₁, _, hsub₂⟩ := (hspec g hg).sub p hp
    rcases (hj.mem x).mp hx with hx | hx
    · exact h.outside x hx g hg ⟨lt_of_le_of_lt hsub₁ hin.1, lt_of_lt_of_le hin.2 hsub₂⟩
    · have hxr := (hc.mem x).mp hx
      exact (hspec g hg).outside p hp x hxr.1 hxr.2.1 hxr.2.2 hin
  · intro p hp
    obtain ⟨g, hg, hp⟩ := mem_flatMap.mp hp
    obtain ⟨hsub₁, hsub, hsub₂⟩ := (hspec g hg).sub p hp
    obtain ⟨hw₁, _, hw₂⟩ := h.within g hg
    refine ⟨(min_le_right _ _).trans (hw₁.trans (WithBot.coe_le_coe.mpr hsub₁)), hsub, ?_⟩
    refine le_trans ?_ (hw₂.trans (le_max_left _ _))
    exact WithBot.coe_le_coe.mpr (by omega)
  · rw [pairwise_flatMap]
    refine ⟨fun g hg => (hspec g hg).ordered, ?_⟩
    refine h.ordered.imp_of_mem ?_
    intro g g' hg hg' hgg p hp q hq
    have := (hspec g hg).sub p hp
    have := (hspec g' hg').sub q hq
    omega
  · exact (min_le_right _ _).trans (h.low_le.trans (le_max_left _ _))
  · intro hnil
    subst hnil
    obtain ⟨hent, hadd⟩ := hj.nil
    rcases le_total lo low with hle | hle
    · rw [min_eq_left hle]
      rcases hb hadd with hbot | hmem | hge
      · exact .inl hbot
      · exact .inr hmem
      · rw [le_antisymm hle hge]
        exact h.bare hent
    · rw [min_eq_right hle]
      exact h.bare hent
  · intro p hp
    obtain ⟨g, hg, hp⟩ := mem_flatMap.mp hp
    rcases (hspec g hg).ends p hp with heq | hheld
    · rw [heq]
      exact (h.ends g hg).imp_right fun ⟨x, hx, hxu⟩ => ⟨x, (hj.mem x).mpr (.inl hx), hxu⟩
    · exact .inr hheld

end KnightCode.Transcript
