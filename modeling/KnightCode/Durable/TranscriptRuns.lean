import KnightCode.Durable.TranscriptKnown
import Mathlib.Data.List.TakeWhile

/-!
# Runs of a client transcript

The system below interleaves the growth of a conversation's visible entries `E`, merges of
truthful windows of any revision, and the calls and settlements of both loads. `Sound` is what a
client reads off the items; it holds along every run whose ranges meet `RangeOk`.
-/

namespace KnightCode.Transcript

open List

variable {β : Type*}
variable {entries : List (EntryRecord β)} {e : EntryRecord β}

/-- A window of some revision of the transcript: the entries after `before`, an entry itself. -/
def TruthfulWindow (E : List (EntryRecord β)) (view : ConversationView β) : Prop :=
  ∃ revision, revision <+: E ∧ (∀ b ∈ view.before, ∃ e ∈ revision, e.id = b) ∧
    view.entries = revision.filter (fun e => view.lo < (e.id : Bound))

/-- One page of a scan of `all`, in the scan's order: a first part of it, empty or without a
cursor only when nothing more matches. -/
def TruthfulPage (all : List (EntryRecord β)) (page : Page β) : Prop :=
  page.items <+: all ∧ (page.next = false → page.items = all) ∧ (page.items = [] → all = [])

inductive Event (β : Type*)
  | append (entry : EntryRecord β)
  | merge (view : ConversationView β)
  | loadEarlier
  | earlierLoaded (page : Page β)
  | earlierFailed
  | earlierSettled
  | fillGap (gap : Gap)
  | gapLoaded (gap : Gap) (page : Page β)
  | gapFailed (gap : Gap)
  | gapSettled (gap : Gap)

abbrev World (β : Type*) := List (EntryRecord β) × ConversationTranscript β

/-- The entries a page of `loadEarlier` lists, newest first. -/
def earlierRange (E : List (EntryRecord β)) (low : Bound) : List (EntryRecord β) :=
  (E.filter (fun e => (e.id : Bound) ≤ low)).reverse

/-- The entries a page of `fillGap` lists. -/
def gapRange (E : List (EntryRecord β)) (gap : Gap) : List (EntryRecord β) :=
  E.filter (fun e => gap.after + 1 ≤ e.id ∧ e.id ≤ gap.upTo - 1)

inductive Step : World β → Event β → World β → Prop
  | append {E t} (e : EntryRecord β) (he : ∀ x ∈ E, x.id < e.id) :
      Step (E, t) (.append e) (E ++ [e], t)
  | merge {E t} (view : ConversationView β) (hv : TruthfulWindow E view) :
      Step (E, t) (.merge view) (E, merge t view)
  | loadEarlier {E t t'} (h : loadEarlier t = some t') : Step (E, t) .loadEarlier (E, t')
  | earlierLoaded {E t} (low : Bound) (page : Page β) (hl : t.earlier = some (.running low))
      (hp : TruthfulPage (earlierRange E low) page) :
      Step (E, t) (.earlierLoaded page) (E, earlierLoaded t low page)
  | earlierFailed {E t} (low : Bound) (hl : t.earlier = some (.running low)) :
      Step (E, t) .earlierFailed (E, { t with earlier := some .settled })
  | earlierSettled {E t} (hl : t.earlier = some .settled) :
      Step (E, t) .earlierSettled (E, { t with earlier := none })
  | fillGap {E t t'} (gap : Gap) (h : fillGap t gap = some t') :
      Step (E, t) (.fillGap gap) (E, t')
  | gapLoaded {E t} (gap : Gap) (page : Page β)
      (hl : Assoc.get gap t.filling = some (.running gap))
      (hp : TruthfulPage (gapRange E gap) page) :
      Step (E, t) (.gapLoaded gap page) (E, gapLoaded t gap page)
  | gapFailed {E t} (gap : Gap) (hl : Assoc.get gap t.filling = some (.running gap)) :
      Step (E, t) (.gapFailed gap) (E, { t with filling := Assoc.set gap .settled t.filling })
  | gapSettled {E t} (gap : Gap) (hl : Assoc.get gap t.filling = some .settled) :
      Step (E, t) (.gapSettled gap) (E, { t with filling := Assoc.erase gap t.filling })

/-- A client's transcript of a conversation whose entries so far are `E`. -/
def transcriptSystem (β : Type*) : System (World β) (Event β) where
  init s := Increasing s.1 ∧ s.2 = empty
  step := Step

/-- What a client needs of the range (`lo`, `hi`] it is told about: a window with neither entries
nor `before` comes only while no entry lies at or below the lower bound, and a range that ends
below the lower bound only while no gap begins before the oldest entry held. -/
def RangeOk (E : List (EntryRecord β)) (t : ConversationTranscript β) (hi : Bound) : Prop :=
  (hi = ⊥ → ∀ e ∈ E, t.low < (e.id : Bound)) ∧
    (hi ≠ ⊥ → hi < t.low → ∀ g ∈ t.gaps.head?, t.entries = [] ∨ ∃ x ∈ t.entries, x.id ≤ g.after)

/-- The condition on the steps of a run. -/
def StepOk (s : World β) : Event β → Prop
  | .merge view => RangeOk s.1 s.2 view.hi
  | .earlierLoaded _ => ∀ low, s.2.earlier = some (.running low) → RangeOk s.1 s.2 low
  | _ => True

def itemEntries (items : List (TranscriptItem β)) : List (EntryRecord β) :=
  items.filterMap fun | .entry e => some e | _ => none

def itemGaps (items : List (TranscriptItem β)) : List Gap :=
  items.filterMap fun | .gap g => some g | _ => none

def Below (e : EntryRecord β) : TranscriptItem β → Prop
  | .entry x => e.id < x.id
  | .gap g => e.id ≤ g.after
  | .earlier => True

/-- What the items say about the visible entries. -/
structure Sound (E : List (EntryRecord β)) (t : ConversationTranscript β) : Prop where
  increasing : Increasing (itemEntries t.items)
  visible : ∀ e ∈ itemEntries t.items, e ∈ E
  complete : ∀ e ∈ E, t.low < (e.id : Bound) → (e.id : Bound) ≤ t.tail →
    e ∈ itemEntries t.items ∨ ∃ g ∈ itemGaps t.items, g.Inside e.id
  outside : ∀ e ∈ itemEntries t.items, ∀ g ∈ itemGaps t.items, ¬ g.Inside e.id
  ordered : (itemGaps t.items).Pairwise
    (fun g h => g.after < h.after ∧ g.upTo < h.upTo ∧ ∀ id, ¬ (g.Inside id ∧ h.Inside id))
  earlier : (∃ e ∈ E, (∃ item ∈ t.items, item ≠ .earlier) ∧ (∀ item ∈ t.items, Below e item) ∧ e ∉
    itemEntries t.items ∧ ∀ g ∈ itemGaps t.items, ¬ g.Inside e.id) → t.items.head? = some .earlier

variable {E : List (EntryRecord β)} {t : ConversationTranscript β}

theorem eq_of_id_eq (hE : Increasing E) {a b : EntryRecord β} (ha : a ∈ E) (hb : b ∈ E)
    (h : a.id = b.id) : a = b := by
  by_contra hne
  rcases pairwise_iff_getElem.mp hE with hp
  obtain ⟨i, hi, rfl⟩ := getElem_of_mem ha
  obtain ⟨j, hj, rfl⟩ := getElem_of_mem hb
  rcases lt_trichotomy i j with hij | rfl | hij
  · have := hp i j hi hj hij
    omega
  · exact hne rfl
  · have := hp j i hj hi hij
    omega

theorem increasing_mergeById {left right : List (EntryRecord β)} (hl : Increasing left)
    (hr : Increasing right) (hne : ∀ a ∈ left, ∀ b ∈ right, a.id ≠ b.id) :
    Increasing (mergeById left right) := by
  unfold mergeById
  induction left generalizing right with
  | nil => simpa using hr
  | cons a as ihl =>
    induction right with
    | nil => simpa using hl
    | cons b bs ihr =>
      have hla := pairwise_cons.mp hl
      have hrb := pairwise_cons.mp hr
      rw [cons_merge_cons]
      split_ifs with hab
      · have hab := of_decide_eq_true hab
        refine pairwise_cons.mpr ⟨?_, ihl hla.2 hr fun x hx => hne x (by simp [hx])⟩
        intro x hx
        rcases mem_merge.mp hx with hx | hx
        · exact hla.1 x hx
        · rcases mem_cons.mp hx with rfl | hx
          · exact hab
          · exact hab.trans (hrb.1 x hx)
      · have hab : b.id < a.id := by
          have := hne a (by simp) b (by simp)
          have : ¬ a.id < b.id := fun h => hab (decide_eq_true h)
          omega
        refine pairwise_cons.mpr
          ⟨?_, ihr hrb.2 fun x hx y hy => hne x hx y (by simp [hy])⟩
        intro x hx
        rcases mem_merge.mp hx with hx | hx
        · rcases mem_cons.mp hx with rfl | hx
          · exact hab
          · exact hab.trans (hla.1 x hx)
        · exact hrb.1 x hx

theorem mem_mergeById {left right : List (EntryRecord β)} {x : EntryRecord β} :
    x ∈ mergeById left right ↔ x ∈ left ∨ x ∈ right := by
  unfold mergeById
  exact mem_merge

theorem mem_freshOf {x : EntryRecord β} :
    x ∈ freshOf t added ↔ x ∈ added ∧ ∀ y ∈ t.entries, y.id ≠ x.id := by
  simp [freshOf]

theorem joined_entriesOf (hE : Increasing E) (ht : Increasing t.entries)
    (hsub : ∀ x ∈ t.entries, x ∈ E) (ha : Increasing added) (hadd : ∀ x ∈ added, x ∈ E) :
    Joined t.entries added (entriesOf t added) := by
  have hfresh : Increasing (freshOf t added) := ha.filter _
  have hne : ∀ a ∈ t.entries, ∀ b ∈ freshOf t added, a.id ≠ b.id :=
    fun a ha b hb => (mem_freshOf.mp hb).2 a ha
  have hmem : ∀ x, x ∈ t.entries ∨ x ∈ freshOf t added ↔ x ∈ t.entries ∨ x ∈ added := by
    intro x
    constructor
    · exact Or.imp_right fun h => (mem_freshOf.mp h).1
    · rintro (h | h)
      · exact .inl h
      · by_cases hx : ∀ y ∈ t.entries, y.id ≠ x.id
        · exact .inr (mem_freshOf.mpr ⟨h, hx⟩)
        · push Not at hx
          obtain ⟨y, hy, hyx⟩ := hx
          exact .inl (eq_of_id_eq hE (hsub y hy) (hadd x h) hyx ▸ hy)
  unfold entriesOf
  split_ifs with happ
  · refine ⟨pairwise_append.mpr ⟨ht, hfresh, ?_⟩, fun x => ?_⟩
    · intro a ha b hb
      unfold appendedOf at happ
      cases hf : freshOf t added with
      | nil => rw [hf] at hb; cases hb
      | cons f fs =>
        cases hl : t.entries.getLast? with
        | none => rw [getLast?_eq_none_iff.mp hl] at ha; cases ha
        | some l =>
          rw [hf, hl] at happ
          have hlf : l.id < f.id := of_decide_eq_true happ
          have hal : a.id ≤ l.id := by
            obtain ⟨init, hinit⟩ := getLast?_eq_some_iff.mp hl
            rw [hinit] at ht ha
            rcases mem_append.mp ha with ha | ha
            · exact ((pairwise_append.mp ht).2.2 a ha l (by simp)).le
            · rw [mem_singleton.mp ha]
          have hfb : f.id ≤ b.id := by
            rw [hf] at hb hfresh
            rcases mem_cons.mp hb with rfl | hb
            · exact le_rfl
            · exact ((pairwise_cons.mp hfresh).1 b hb).le
          omega
    · rw [mem_append, hmem]
  · exact ⟨increasing_mergeById ht hfresh hne, fun x => by rw [mem_mergeById, hmem]⟩

/-- The invariant of a client's transcript, loads in flight included. -/
structure Inv (E : List (EntryRecord β)) (t : ConversationTranscript β) : Prop where
  increasing : Increasing E
  known : Known E t.entries t.gaps t.low t.tail
  built : t.items = build t.low t.gaps t.entries
  unstarted : t.started = false → t.entries = [] ∧ t.gaps = [] ∧ t.low = ⊥ ∧ t.tail = ⊥
  earlierLoad : ∀ l, t.earlier = some (.running l) → l ≠ ⊥ ∧ l ≤ t.tail
  gapLoad : ∀ k g, Assoc.get k t.filling = some (.running g) →
    (t.entries ≠ [] ∨ t.gaps ≠ []) ∧ t.low ≤ (g.after : Bound) ∧ g.after + 1 < g.upTo ∧
      ((g.upTo - 1 : ℤ) : Bound) ≤ t.tail ∧
      ((∃ e ∈ E, e.id = g.upTo - 1) ∨ ∃ x ∈ t.entries, x.id = g.upTo)

/-- A range the invariant survives: what it lists, how it meets the known range when it lists
nothing, and the condition of the steps. -/
structure RangeFits (E : List (EntryRecord β)) (t : ConversationTranscript β) (lo hi : Bound)
    (added : List (EntryRecord β)) : Prop where
  covered : Covered E lo hi added
  bare : added = [] → lo = ⊥ ∨ (∃ e ∈ E, lo = (e.id : Bound)) ∨ t.low ≤ lo ∧ lo < t.tail
  reaches : added = [] → lo < hi → ∀ g ∈ t.gaps, Reaches t.entries lo hi g
  ok : RangeOk E t hi

variable {lo hi : Bound} {added : List (EntryRecord β)}

theorem Inv.joined (h : Inv E t) (hr : RangeFits E t lo hi added) :
    Joined t.entries added (entriesOf t added) :=
  joined_entriesOf h.increasing h.known.increasing (fun x hx => (h.known.mem x hx).1)
    hr.covered.increasing (fun x hx => ((hr.covered.mem x).mp hx).1)

theorem RangeFits.bare_of_tail_le (hr : RangeFits E t lo hi added) (hlo : t.tail ≤ lo)
    (hnil : added = []) : lo = ⊥ ∨ ∃ e ∈ E, lo = (e.id : Bound) := by
  rcases hr.bare hnil with hb | hb | hb
  · exact .inl hb
  · exact .inr hb
  · exact absurd hb.2 (not_lt.mpr hlo)

theorem Inv.cover_known (h : Inv E t) (hr : RangeFits E t lo hi added) :
    Known E (cover t lo hi added).entries (cover t lo hi added).gaps (cover t lo hi added).low
      (cover t lo hi added).tail := by
  have hj := h.joined hr
  simp only [cover, extend]
  by_cases hs : t.started = false
  · obtain ⟨hent, hgap, hlow, htail⟩ := h.unstarted hs
    rw [if_pos (by simp [hs])]
    simp only [hgap]
    rw [hent] at hj
    exact Known.first hr.covered hj (by simp [htail]) (hr.bare_of_tail_le (by simp [htail]))
  have hs : t.started = true := by simpa using hs
  by_cases hfirst : t.entries = [] ∧ t.gaps = [] ∧ t.tail ≤ lo
  · obtain ⟨hent, hgap, hlo⟩ := hfirst
    rw [if_pos (by simp [hent, hgap, hlo])]
    simp only [hgap]
    rw [hent] at hj
    exact Known.first hr.covered hj hlo (hr.bare_of_tail_le hlo)
  rw [if_neg (by simpa [hs, and_assoc] using hfirst)]
  by_cases hpast : t.tail < lo
  · rw [if_pos hpast]
    have hne : t.entries ≠ [] ∨ t.gaps ≠ [] := by
      by_contra hne
      push Not at hne
      exact hfirst ⟨hne.1, hne.2, hpast.le⟩
    refine h.known.past hr.covered hj hne hpast fun hnil => ?_
    exact (hr.bare_of_tail_le hpast.le hnil).resolve_left (bot_le.trans_lt hpast).ne'
  rw [if_neg hpast]
  by_cases hbelow : hi ≠ ⊥ ∧ hi < t.low
  · rw [if_pos hbelow]
    refine h.known.below hr.covered hj hbelow.1 hbelow.2 (fun hnil => ?_)
      (hr.ok.2 hbelow.1 hbelow.2)
    rcases hr.bare hnil with hb | hb | hb
    · exact .inl hb
    · exact .inr hb
    · exact absurd (hb.1.trans hr.covered.le) (not_le.mpr hbelow.2)
  · rw [if_neg hbelow]
    have hhi : hi = ⊥ ∨ t.low ≤ hi := by
      by_cases hbot : hi = ⊥
      · exact .inl hbot
      · exact .inr (not_lt.mp fun hlt => hbelow ⟨hbot, hlt⟩)
    exact h.known.meet hr.covered hj (not_lt.mp hpast) hhi
      (fun hnil => (hr.bare hnil).imp_right (Or.imp_right And.left)) hr.ok.1 hr.reaches

theorem weave_append {gaps : List Gap} {fresh : List (EntryRecord β)}
    (h : ∀ g ∈ gaps, ∀ e ∈ fresh, g.after < e.id) :
    weave gaps (entries ++ fresh) = weave gaps entries ++ fresh.map .entry := by
  induction entries generalizing gaps with
  | nil =>
    cases fresh with
    | nil => simp
    | cons f fs =>
      have hall : ∀ g ∈ gaps, decide (g.after < f.id) = true := fun g hg =>
        decide_eq_true (h g hg f (by simp))
      have hweave : ∀ es : List (EntryRecord β), weave [] es = es.map .entry := by
        intro es
        induction es with
        | nil => rfl
        | cons e es ih => simp [weave, ih]
      simp [weave, takeWhile_eq_self_iff.mpr hall, dropWhile_eq_nil_iff.mpr hall, hweave]
  | cons e es ih =>
    simp only [cons_append, weave]
    rw [ih fun g hg => h g ((dropWhile_sublist _).subset hg)]
    simp

theorem itemEntries_weave (gaps : List Gap) (entries : List (EntryRecord β)) :
    itemEntries (weave gaps entries) = entries := by
  have hgaps : ∀ gs : List Gap, itemEntries (gs.map (.gap : Gap → TranscriptItem β)) = [] := by
    intro gs
    simp [itemEntries]
  unfold itemEntries at hgaps ⊢
  induction entries generalizing gaps with
  | nil => exact hgaps gaps
  | cons e es ih => simp only [weave, filterMap_append, hgaps, filterMap_cons, ih]; rfl

theorem itemGaps_weave (gaps : List Gap) (entries : List (EntryRecord β)) :
    itemGaps (weave gaps entries) = gaps := by
  have hgaps : ∀ gs : List Gap, itemGaps (gs.map (.gap : Gap → TranscriptItem β)) = gs := by
    intro gs
    simp [itemGaps, filterMap_map]
  unfold itemGaps at hgaps ⊢
  induction entries generalizing gaps with
  | nil => exact hgaps gaps
  | cons e es ih =>
    simp only [weave, filterMap_append, hgaps, filterMap_cons, ih]
    exact takeWhile_append_dropWhile

@[simp] theorem itemEntries_build (low : Bound) (gaps : List Gap)
    (entries : List (EntryRecord β)) : itemEntries (build low gaps entries) = entries := by
  have h := itemEntries_weave gaps entries
  unfold itemEntries at h ⊢
  unfold build
  rw [filterMap_append, h]
  split_ifs <;> rfl

@[simp] theorem itemGaps_build (low : Bound) (gaps : List Gap)
    (entries : List (EntryRecord β)) : itemGaps (build low gaps entries) = gaps := by
  have h := itemGaps_weave gaps entries
  unfold itemGaps at h ⊢
  unfold build
  rw [filterMap_append, h]
  split_ifs <;> rfl

theorem extend_not_rebuild (h : (extend t entries lo hi added).2.2.2 = false) :
    (extend t entries lo hi added).1 = t.gaps ∧ (extend t entries lo hi added).2.1 = t.low ∧
      t.low ≤ lo ∧
        ((t.gaps = []) ∨ (hi ≤ lo ∨ ∀ g ∈ t.gaps, subtractGap entries lo hi g = none)) := by
  simp only [extend] at h ⊢
  split_ifs at h ⊢ with hfirst
  · have hlow : lo = t.low := by simpa using (Bool.or_eq_false_iff.mp h).2
    have hs : t.started = true := by simpa using (Bool.or_eq_false_iff.mp h).1
    have hgap : t.gaps = [] := by
      have := hfirst
      simp only [hs, Bool.not_true, Bool.false_or, Bool.and_eq_true, List.isEmpty_iff] at this
      exact this.1.2
    exact ⟨rfl, hlow, hlow.ge, .inl hgap⟩
  · obtain ⟨hsub, hlt⟩ := Bool.or_eq_false_iff.mp h
    have hle : t.low ≤ lo := not_lt.mp (of_decide_eq_false hlt)
    refine ⟨?_, min_eq_right hle, hle, .inr ?_⟩
    · unfold subtract at hsub ⊢
      split_ifs at hsub ⊢
      · rfl
      · have hnone : ∀ g ∈ t.gaps, subtractGap entries lo hi g = none := by simpa using hsub
        calc t.gaps.flatMap (fun g => (subtractGap entries lo hi g).getD [g])
            = t.gaps.flatMap (fun g => [g]) :=
              flatMap_congr fun g hg => by rw [hnone g hg]; rfl
          _ = t.gaps := by simp
    · unfold subtract at hsub
      split_ifs at hsub with hlh
      · exact .inl hlh
      · exact .inr (by simpa using hsub)

theorem Inv.cover_built (h : Inv E t) (hr : RangeFits E t lo hi added) :
    (cover t lo hi added).items = build (cover t lo hi added).low (cover t lo hi added).gaps
      (cover t lo hi added).entries := by
  simp only [cover]
  split_ifs with hbuild
  · rfl
  obtain ⟨hre, happ⟩ : (extend t (entriesOf t added) lo hi added).2.2.2 = false ∧
      appendedOf t added = true := by simpa using hbuild
  obtain ⟨hgaps, hlow, hle, hnone⟩ := extend_not_rebuild hre
  have hent : entriesOf t added = t.entries ++ freshOf t added := by
    unfold entriesOf
    rw [if_pos happ]
  rw [hgaps, hlow, hent, h.built]
  unfold build
  rw [weave_append, append_assoc]
  intro g hg e he
  obtain ⟨he, hnew⟩ := mem_freshOf.mp he
  obtain ⟨heE, hlo, hhi⟩ := (hr.covered.mem e).mp he
  -- an entry that is new and fills no gap lies past everything known
  have hpast : t.tail < (e.id : Bound) := by
    by_contra htail
    rcases h.known.complete e heE (hle.trans_lt hlo) (not_lt.mp htail) with hm | ⟨g', hg', hin⟩
    · exact hnew e hm rfl
    · rcases hnone with hnil | hlh | hnone
      · rw [hnil] at hg
        cases hg
      · exact absurd (hlo.trans_le hhi) (not_lt.mpr hlh)
      · have hmeet := hnone g' hg'
        unfold subtractGap at hmeet
        split_ifs at hmeet with hapart
        obtain rfl | ⟨n, rfl⟩ := Bound.cases hi
        · simp at hhi
        obtain ⟨hin₁, hin₂⟩ := hin
        have hen := WithBot.coe_le_coe.mp hhi
        rcases hapart with ha | ha
        · have := WithBot.coe_le_coe.mp ha
          omega
        · obtain rfl | ⟨m, rfl⟩ := Bound.cases lo
          · simp at ha
          · rw [Bound.succ_coe] at ha
            have := WithBot.coe_le_coe.mp ha
            have := WithBot.coe_lt_coe.mp hlo
            omega
  have hup := (h.known.within g hg).2
  have := WithBot.coe_lt_coe.mp (hup.2.trans_lt hpast)
  omega

theorem tail_le_cover (t : ConversationTranscript β) (hle : lo ≤ hi) :
    t.tail ≤ (cover t lo hi added).tail := by
  simp only [cover, extend]
  split_ifs with _ hpast
  · exact le_max_left _ _
  · exact hpast.le.trans hle
  · exact le_rfl
  · exact le_max_left _ _

theorem Inv.cover_low_le (h : Inv E t) (hr : RangeFits E t lo hi added)
    (hne : t.entries ≠ [] ∨ t.gaps ≠ []) : (cover t lo hi added).low ≤ t.low := by
  simp only [cover, extend]
  split_ifs with hfirst _ hbelow
  · exfalso
    by_cases hs : t.started = false
    · obtain ⟨hent, hgap, _⟩ := h.unstarted hs
      exact hne.elim (· hent) (· hgap)
    · have hs : t.started = true := by simpa using hs
      simp only [hs, Bool.not_true, Bool.false_or, Bool.and_eq_true, List.isEmpty_iff] at hfirst
      exact hne.elim (· hfirst.1.1) (· hfirst.1.2)
  · exact le_rfl
  · exact hr.covered.le.trans hbelow.2.le
  · exact min_le_right _ _

theorem Inv.cover_ne_nil (h : Inv E t) (hr : RangeFits E t lo hi added)
    (hne : t.entries ≠ [] ∨ t.gaps ≠ []) :
    (cover t lo hi added).entries ≠ [] ∨ (cover t lo hi added).gaps ≠ [] := by
  have hj := h.joined hr
  have hk := h.cover_known hr
  by_contra hnil
  push Not at hnil
  have hent : entriesOf t added = [] := hnil.1
  rw [hent] at hj
  obtain ⟨g, hg⟩ := exists_mem_of_ne_nil _ (hne.resolve_left fun hne => hne hj.nil.1)
  obtain ⟨hlow, hwide, htail⟩ := h.known.within g hg
  rcases h.known.ends g hg with ⟨e, he, heu⟩ | ⟨x, hx, _⟩
  · have hin : t.low < (e.id : Bound) :=
      hlow.trans_lt (WithBot.coe_lt_coe.mpr (by omega))
    rcases hk.complete e he ((h.cover_low_le hr hne).trans_lt hin)
      (by rw [heu]; exact htail.trans (tail_le_cover t hr.covered.le)) with hm | ⟨g', hg', _⟩
    · rw [hnil.1] at hm
      cases hm
    · rw [hnil.2] at hg'
      cases hg'
  · rw [hj.nil.1] at hx
    cases hx

theorem Inv.cover (h : Inv E t) (hr : RangeFits E t lo hi added) : Inv E (cover t lo hi added) where
  increasing := h.increasing
  known := h.cover_known hr
  built := h.cover_built hr
  unstarted hs := by simp [Transcript.cover] at hs
  earlierLoad l hl := by
    obtain ⟨hbot, hle⟩ := h.earlierLoad l hl
    exact ⟨hbot, hle.trans (tail_le_cover t hr.covered.le)⟩
  gapLoad k g hg := by
    obtain ⟨hne, hlow, hwide, htail, hend⟩ := h.gapLoad k g hg
    refine ⟨h.cover_ne_nil hr hne, (h.cover_low_le hr hne).trans hlow, hwide,
      htail.trans (tail_le_cover t hr.covered.le), ?_⟩
    exact hend.imp_right fun ⟨x, hx, hxu⟩ => ⟨x, ((h.joined hr).mem x).mpr (.inl hx), hxu⟩

theorem id_le_getLast (hs : Increasing entries) {last : EntryRecord β}
    (hl : entries.getLast? = some last) (he : e ∈ entries) : e.id ≤ last.id := by
  obtain ⟨init, rfl⟩ := getLast?_eq_some_iff.mp hl
  rcases mem_append.mp he with he | he
  · exact ((pairwise_append.mp hs).2.2 e he last (by simp)).le
  · rw [mem_singleton.mp he]

theorem mem_initial_of_le {all part : List (EntryRecord β)} (hs : Increasing all)
    (hp : part <+: all) {last : EntryRecord β} (hlast : last ∈ part) (he : e ∈ all)
    (hle : e.id ≤ last.id) : e ∈ part := by
  obtain ⟨rest, rfl⟩ := hp
  rcases mem_append.mp he with he | he
  · exact he
  · have := (pairwise_append.mp hs).2.2 last hlast e he
    omega

theorem window_fits (h : Inv E t) {view : ConversationView β} (hv : TruthfulWindow E view)
    (hok : RangeOk E t view.hi) : RangeFits E t view.lo view.hi view.entries := by
  obtain ⟨revision, hrev, hbefore, hent⟩ := hv
  have hrs : Increasing revision := h.increasing.sublist hrev.sublist
  have hes : Increasing view.entries := hent ▸ hrs.filter _
  have hmem : ∀ e, e ∈ view.entries ↔ e ∈ revision ∧ view.lo < (e.id : Bound) := by
    intro e
    rw [hent]
    simp
  have hlo : view.lo = ⊥ ∨ ∃ e ∈ E, view.lo = (e.id : Bound) := by
    cases hb : view.before with
    | none => exact .inl (by simp [ConversationView.lo, hb])
    | some b =>
      obtain ⟨e, he, heb⟩ := hbefore b (by simp [hb])
      exact .inr ⟨e, hrev.subset he, by simp [ConversationView.lo, hb, heb]⟩
  cases hl : view.entries.getLast? with
  | none =>
    have hnil := getLast?_eq_none_iff.mp hl
    have hhi : view.hi = view.lo := by simp [ConversationView.hi, hl]
    refine ⟨⟨?_, hes, hhi.ge, ?_⟩, fun _ => hlo.imp_right .inl, ?_, hok⟩
    · intro e
      rw [hnil, hhi]
      simp only [not_mem_nil, false_iff, not_and]
      exact fun _ hlt => not_le.mpr hlt
    · rw [hhi]
      exact hlo.imp_right fun ⟨e, he, hle⟩ => ⟨e, he, hle.le⟩
    · intro _ hlt
      exact absurd hlt (by simp [hhi])
  | some last =>
    have hhi : view.hi = (last.id : Bound) := by simp [ConversationView.hi, hl, idAsNumber]
    have hlast : last ∈ view.entries := mem_of_getLast? hl
    refine ⟨⟨?_, hes, ?_, .inr ⟨last, hrev.subset ((hmem last).mp hlast).1, hhi.le⟩⟩, ?_, ?_, hok⟩
    · intro e
      rw [hhi]
      constructor
      · intro he
        exact ⟨hrev.subset ((hmem e).mp he).1, ((hmem e).mp he).2,
          WithBot.coe_le_coe.mpr (id_le_getLast hes hl he)⟩
      · rintro ⟨he, hlt, hle⟩
        exact (hmem e).mpr ⟨mem_initial_of_le h.increasing hrev ((hmem last).mp hlast).1 he
          (WithBot.coe_le_coe.mp hle), hlt⟩
    · rw [hhi]
      exact ((hmem last).mp hlast).2.le
    · intro hnil
      rw [hnil] at hlast
      cases hlast
    · intro hnil
      rw [hnil] at hlast
      cases hlast

theorem earlier_fits (h : Inv E t) {low : Bound} {page : Page β}
    (hl : t.earlier = some (.running low)) (hp : TruthfulPage (earlierRange E low) page)
    (hok : RangeOk E t low) : RangeFits E t (earlierLo page) low page.items.reverse := by
  obtain ⟨hpre, hall, hnil⟩ := hp
  obtain ⟨hbot, htail⟩ := h.earlierLoad low hl
  have hknown : low = ⊥ ∨ ∃ e ∈ E, low ≤ (e.id : Bound) := by
    rcases h.known.tail_known with hb | ⟨e, he, hle⟩
    · exact absurd (le_bot_iff.mp (hb ▸ htail)) hbot
    · exact .inr ⟨e, he, htail.trans hle⟩
  have hfs : Increasing (E.filter (fun e => (e.id : Bound) ≤ low)) := h.increasing.filter _
  -- the page reversed is the last part of the entries it may list
  obtain ⟨rest, hrest⟩ : ∃ rest, rest ++ page.items.reverse =
      E.filter (fun e => (e.id : Bound) ≤ low) := by
    obtain ⟨rest, hrest⟩ := hpre
    refine ⟨rest.reverse, ?_⟩
    rw [← reverse_append, hrest, earlierRange, reverse_reverse]
  have hsorted := hrest ▸ hfs
  have hwhole : page.items = earlierRange E low → ∀ e, e ∈ page.items.reverse ↔
      e ∈ E ∧ (⊥ : Bound) < (e.id : Bound) ∧ (e.id : Bound) ≤ low := by
    intro heq e
    rw [heq]
    simp [earlierRange]
  have hinc : Increasing page.items.reverse := (pairwise_append.mp hsorted).2.1
  by_cases hlast : page.next = true ∧ page.items ≠ []
  · obtain ⟨hnext, hne⟩ := hlast
    obtain ⟨oldest, hold⟩ : ∃ oldest, page.items.getLast? = some oldest :=
      ⟨_, getLast?_eq_some_getLast hne⟩
    have hlo : earlierLo page = ((oldest.id - 1 : ℤ) : Bound) := by
      simp [earlierLo, hnext, hold]
    have hmemold : oldest ∈ page.items := mem_of_getLast? hold
    have hin : ∀ e, e ∈ page.items.reverse → e ∈ E ∧ (e.id : Bound) ≤ low := by
      intro e he
      have : e ∈ E.filter (fun e => (e.id : Bound) ≤ low) :=
        hrest ▸ mem_append_right _ he
      simpa using this
    have hhead : ∀ e ∈ page.items.reverse, oldest.id ≤ e.id := by
      obtain ⟨init, hinit⟩ := getLast?_eq_some_iff.mp hold
      intro e he
      rw [hinit, reverse_append] at he hinc
      rcases mem_cons.mp he with rfl | he
      · exact le_rfl
      · exact ((pairwise_cons.mp hinc).1 e he).le
    rw [hlo]
    refine ⟨⟨?_, hinc, ?_, hknown⟩, ?_, ?_, hok⟩
    · intro e
      constructor
      · intro he
        have := hhead e he
        exact ⟨(hin e he).1, WithBot.coe_lt_coe.mpr (by omega), (hin e he).2⟩
      · rintro ⟨he, hlt, hle⟩
        have hlt := WithBot.coe_lt_coe.mp hlt
        have hmem : e ∈ rest ++ page.items.reverse := by
          rw [hrest]
          simpa using ⟨he, hle⟩
        rcases mem_append.mp hmem with hm | hm
        · have := (pairwise_append.mp hsorted).2.2 e hm oldest (by simpa using hmemold)
          omega
        · exact hm
    · refine le_trans (WithBot.coe_le_coe.mpr (by omega)) (hin oldest (by simpa using hmemold)).2
    · intro hnil'
      exact absurd (reverse_eq_nil_iff.mp hnil') hne
    · intro hnil'
      exact absurd (reverse_eq_nil_iff.mp hnil') hne
  · have hlo : earlierLo page = ⊥ := by
      unfold earlierLo
      cases hnext : page.next with
      | false => rfl
      | true =>
        have : page.items = [] := by
          by_contra hne
          exact hlast ⟨hnext, hne⟩
        simp [this]
    have heq : page.items = earlierRange E low := by
      by_cases hne : page.items = []
      · rw [hnil hne, hne]
      · exact hall (by simpa using fun hnext => hlast ⟨hnext, hne⟩)
    rw [hlo]
    exact ⟨⟨hwhole heq, hinc, bot_le, hknown⟩, fun _ => .inl rfl,
      fun _ _ g _ hlt => absurd hlt (by simp), hok⟩

theorem gap_fits (h : Inv E t) {gap : Gap} {page : Page β}
    (hl : Assoc.get gap t.filling = some (.running gap)) (hp : TruthfulPage (gapRange E gap) page) :
    RangeFits E t gap.after (fillHi gap page) page.items := by
  obtain ⟨hpre, hall, hnil⟩ := hp
  obtain ⟨hne, hlow, hwide, htail, hend⟩ := h.gapLoad gap gap hl
  have hgs : Increasing (gapRange E gap) := h.increasing.filter _
  have hmem : ∀ e, e ∈ gapRange E gap ↔ e ∈ E ∧ gap.after + 1 ≤ e.id ∧ e.id ≤ gap.upTo - 1 := by
    intro e
    simp [gapRange]
  obtain ⟨n, hhi, hnle, hn, hiff⟩ : ∃ n : ℤ, fillHi gap page = (n : Bound) ∧ n ≤ gap.upTo - 1 ∧
      gap.after < n ∧ (∀ e, e ∈ page.items ↔ e ∈ E ∧ gap.after < e.id ∧ e.id ≤ n) := by
    by_cases hlast : page.next = true ∧ page.items ≠ []
    · obtain ⟨hnext, hne⟩ := hlast
      obtain ⟨newest, hnew⟩ : ∃ newest, page.items.getLast? = some newest :=
        ⟨_, getLast?_eq_some_getLast hne⟩
      have hnewest := mem_of_getLast? hnew
      have hr := (hmem newest).mp (hpre.subset hnewest)
      refine ⟨newest.id, by simp [fillHi, hnext, hnew], hr.2.2, by omega, fun e => ?_⟩
      constructor
      · intro he
        have hr := (hmem e).mp (hpre.subset he)
        exact ⟨hr.1, by omega, id_le_getLast (hgs.sublist hpre.sublist) hnew he⟩
      · rintro ⟨he, hlt, hle⟩
        exact mem_initial_of_le hgs hpre hnewest
          ((hmem e).mpr ⟨he, by omega, by omega⟩) hle
    · have heq : page.items = gapRange E gap := by
        by_cases hne : page.items = []
        · rw [hnil hne, hne]
        · exact hall (by simpa using fun hnext => hlast ⟨hnext, hne⟩)
      refine ⟨gap.upTo - 1, ?_, le_rfl, by omega, fun e => ?_⟩
      · unfold fillHi
        cases hnext : page.next with
        | false => rfl
        | true =>
          have : page.items = [] := by
            by_contra hne
            exact hlast ⟨hnext, hne⟩
          simp [this]
      · rw [heq, hmem]
        constructor <;> rintro ⟨he, h₁, h₂⟩ <;> exact ⟨he, by omega, by omega⟩
  have htn : (n : Bound) ≤ t.tail := (WithBot.coe_le_coe.mpr hnle).trans htail
  rw [hhi]
  refine ⟨⟨?_, hgs.sublist hpre.sublist, WithBot.coe_le_coe.mpr hn.le, ?_⟩, ?_, ?_, ?_⟩
  · intro e
    rw [hiff, WithBot.coe_lt_coe, WithBot.coe_le_coe]
  · rcases h.known.tail_known with hb | ⟨e, he, hle⟩
    · rw [hb] at htn
      simp at htn
    · exact .inr ⟨e, he, htn.trans hle⟩
  · intro _
    exact .inr (.inr ⟨hlow, (WithBot.coe_lt_coe.mpr hn).trans_le htn⟩)
  · intro hempty _ g hg hlt
    right
    have hall : gapRange E gap = [] := hnil hempty
    have hn : n = gap.upTo - 1 := by
      have : fillHi gap page = ((gap.upTo - 1 : ℤ) : Bound) := by
        unfold fillHi
        cases page.next <;> simp [hempty]
      rw [this] at hhi
      exact (WithBot.coe_inj.mp hhi).symm
    rcases hend with ⟨e, he, heu⟩ | ⟨x, hx, hxu⟩
    · have := (hmem e).mpr ⟨he, by omega, by omega⟩
      rw [hall] at this
      cases this
    · have hlt := WithBot.coe_lt_coe.mp hlt
      refine ⟨?_, x, hx, WithBot.coe_lt_coe.mpr (by omega)⟩
      rw [Bound.succ_coe]
      refine WithBot.coe_le_coe.mpr ?_
      by_contra hgt
      exact h.known.outside x hx g hg ⟨by omega, by omega⟩
  · refine ⟨fun hbot => absurd hbot (by simp), fun _ hlt => ?_⟩
    exact absurd (hlow.trans_lt (WithBot.coe_lt_coe.mpr hn)) (not_lt.mpr hlt.le)

theorem inv_empty (hE : Increasing E) : Inv E (empty : ConversationTranscript β) where
  increasing := hE
  known := known_empty E
  built := rfl
  unstarted _ := ⟨rfl, rfl, rfl, rfl⟩
  earlierLoad := by simp [empty]
  gapLoad := by simp [empty]

theorem Inv.of_view (h : Inv E t) (view : ConversationView β) :
    Inv E { t with last := some view } :=
  { h with }

theorem Inv.of_earlier (h : Inv E t) {load : Option (Load Bound)}
    (hl : ∀ l, load = some (.running l) → l ≠ ⊥ ∧ l ≤ t.tail) : Inv E { t with earlier := load } :=
  { h with earlierLoad := hl }

theorem Inv.of_settled (h : Inv E t) (gap : Gap) :
    Inv E { t with filling := Assoc.set gap .settled t.filling } := by
  refine { h with gapLoad := ?_ }
  intro k g hg
  rw [Assoc.get_set] at hg
  split_ifs at hg
  · cases hg
  · exact h.gapLoad k g hg

theorem RangeFits.of_earlier (h : RangeFits E t lo hi added) (load : Option (Load Bound)) :
    RangeFits E { t with earlier := load } lo hi added :=
  { h with }

theorem RangeFits.of_settled (h : RangeFits E t lo hi added) (gap : Gap) :
    RangeFits E { t with filling := Assoc.set gap .settled t.filling } lo hi added :=
  { h with }

theorem Inv.of_erased (h : Inv E t) (gap : Gap) :
    Inv E { t with filling := Assoc.erase gap t.filling } := by
  refine { h with gapLoad := ?_ }
  intro k g hg
  rw [Assoc.get_erase] at hg
  split_ifs at hg
  exact h.gapLoad k g hg

theorem Inv.grow (h : Inv E t) (he : ∀ x ∈ E, x.id < e.id) : Inv (E ++ [e]) t where
  increasing := pairwise_append.mpr
    ⟨h.increasing, pairwise_singleton _ _, fun x hx y hy => mem_singleton.mp hy ▸ he x hx⟩
  known := h.known.grow he
  built := h.built
  unstarted := h.unstarted
  earlierLoad := h.earlierLoad
  gapLoad k g hg := by
    obtain ⟨hne, hlow, hwide, htail, hend⟩ := h.gapLoad k g hg
    exact ⟨hne, hlow, hwide, htail,
      hend.imp_left fun ⟨x, hx, hxu⟩ => ⟨x, mem_append_left _ hx, hxu⟩⟩

theorem currentGap_mem {gap current : Gap} (h : currentGap t gap = some current) :
    current ∈ t.gaps := by
  unfold currentGap at h
  rcases Option.or_eq_some_iff.mp h with h | ⟨_, h⟩
  · exact mem_of_find?_eq_some h
  · exact mem_of_find?_eq_some h

theorem Inv.loadEarlier (h : Inv E t) {t' : ConversationTranscript β}
    (ht : loadEarlier t = some t') : Inv E t' := by
  unfold Transcript.loadEarlier at ht
  split_ifs at ht with _ hlow
  · cases ht
    exact h
  · split at ht <;> cases ht
    · exact h
    · refine h.of_earlier fun l hl => ?_
      cases hl
      exact ⟨hlow, h.known.low_le⟩

theorem Inv.fillGap (h : Inv E t) {t' : ConversationTranscript β} {gap : Gap}
    (ht : fillGap t gap = some t') : Inv E t' := by
  unfold Transcript.fillGap at ht
  split at ht
  · split_ifs at ht
    cases ht
    exact h
  · rename_i current hcur
    split at ht <;> cases ht
    · exact h
    · refine { h with gapLoad := ?_ }
      intro k g hg
      rw [Assoc.get_set] at hg
      split_ifs at hg
      · cases hg
        have hmem := currentGap_mem hcur
        obtain ⟨hlow, hwide, htail⟩ := h.known.within current hmem
        exact ⟨.inr (ne_nil_of_mem hmem), hlow, hwide, htail, h.known.ends current hmem⟩
      · exact h.gapLoad k g hg

theorem Inv.step {s s' : World β} {a : Event β} (h : Inv s.1 s.2) (hok : StepOk s a)
    (hs : Step s a s') : Inv s'.1 s'.2 ∧ ∀ e ∈ s.2.entries, e ∈ s'.2.entries := by
  cases hs with
  | append e he => exact ⟨h.grow he, fun _ hx => hx⟩
  | merge view hv =>
    have hr := window_fits (h.of_view view) hv hok
    exact ⟨(h.of_view view).cover hr,
      fun x hx => (((h.of_view view).joined hr).mem x).mpr (.inl hx)⟩
  | loadEarlier ht =>
    refine ⟨h.loadEarlier ht, fun x hx => ?_⟩
    unfold Transcript.loadEarlier at ht
    split_ifs at ht
    · cases ht
      exact hx
    · split at ht <;> cases ht <;> exact hx
  | earlierLoaded low page hl hp =>
    have hi := h.of_earlier (by simp : ∀ l, (some .settled : Option (Load Bound)) =
      some (.running l) → l ≠ ⊥ ∧ l ≤ _)
    have hr := (earlier_fits h hl hp (hok low hl)).of_earlier (some .settled)
    exact ⟨hi.cover hr, fun x hx => ((hi.joined hr).mem x).mpr (.inl hx)⟩
  | earlierFailed low hl | earlierSettled hl => exact ⟨h.of_earlier (by simp), fun _ hx => hx⟩
  | fillGap gap ht =>
    refine ⟨h.fillGap ht, fun x hx => ?_⟩
    unfold Transcript.fillGap at ht
    split at ht
    · split_ifs at ht
      cases ht
      exact hx
    · split at ht <;> cases ht <;> exact hx
  | gapLoaded gap page hl hp =>
    have hi := h.of_settled gap
    have hr := (gap_fits h hl hp).of_settled gap
    exact ⟨hi.cover hr, fun x hx => ((hi.joined hr).mem x).mpr (.inl hx)⟩
  | gapFailed gap hl => exact ⟨h.of_settled gap, fun _ hx => hx⟩
  | gapSettled gap hl => exact ⟨h.of_erased gap, fun _ hx => hx⟩

theorem weave_item {gaps : List Gap} {item : TranscriptItem β} (h : item ∈ weave gaps entries) :
    (∃ e ∈ entries, item = .entry e) ∨ ∃ g ∈ gaps, item = .gap g := by
  induction entries generalizing gaps with
  | nil =>
    obtain ⟨g, hg, rfl⟩ := mem_map.mp h
    exact .inr ⟨g, hg, rfl⟩
  | cons e es ih =>
    rcases mem_append.mp h with h | h
    · obtain ⟨g, hg, rfl⟩ := mem_map.mp h
      exact .inr ⟨g, (takeWhile_sublist _).subset hg, rfl⟩
    · rcases mem_cons.mp h with rfl | h
      · exact .inl ⟨e, by simp, rfl⟩
      · rcases ih h with ⟨x, hx, rfl⟩ | ⟨g, hg, rfl⟩
        · exact .inl ⟨x, by simp [hx], rfl⟩
        · exact .inr ⟨g, (dropWhile_sublist _).subset hg, rfl⟩

theorem Inv.sound (h : Inv E t) : Sound E t where
  increasing := by
    rw [h.built, itemEntries_build]
    exact h.known.increasing
  visible := by
    rw [h.built, itemEntries_build]
    exact fun e he => (h.known.mem e he).1
  complete := by
    rw [h.built, itemEntries_build, itemGaps_build]
    exact h.known.complete
  outside := by
    rw [h.built, itemEntries_build, itemGaps_build]
    exact h.known.outside
  ordered := by
    rw [h.built, itemGaps_build]
    refine h.known.ordered.imp_of_mem ?_
    intro g g' hg hg' hgg
    have := (h.known.within g hg).2.1
    have := (h.known.within g' hg').2.1
    refine ⟨by omega, by omega, ?_⟩
    rintro id ⟨⟨_, h₁⟩, h₂, _⟩
    omega
  earlier := by
    rw [h.built, itemEntries_build, itemGaps_build]
    rintro ⟨e, he, ⟨item, hitem, hne⟩, hbelow, hheld, hgap⟩
    by_cases hlow : t.low = ⊥
    · exfalso
      have hmem : item ∈ weave t.gaps t.entries := by
        simpa [build, hlow] using hitem
      have htail : (e.id : Bound) ≤ t.tail := by
        rcases weave_item hmem with ⟨x, hx, rfl⟩ | ⟨g, hg, rfl⟩
        · have hlt : e.id < x.id := hbelow _ hitem
          exact (WithBot.coe_le_coe.mpr hlt.le).trans (h.known.mem x hx).2.2
        · have hle : e.id ≤ g.after := hbelow _ hitem
          have hw := (h.known.within g hg).2
          exact (WithBot.coe_le_coe.mpr (by omega)).trans hw.2
      rcases h.known.complete e he (by simp [hlow]) htail with hm | ⟨g, hg, hin⟩
      · exact hheld hm
      · exact hgap g hg hin
    · simp [build, hlow]

theorem Inv.reachable {s : World β} (h : (transcriptSystem β).ReachableBy StepOk s) : Inv s.1 s.2 :=
  h.invariant (I := fun s => Inv s.1 s.2) (fun _ hs => hs.2 ▸ inv_empty hs.1)
    fun _ _ _ hi hok hs => (Inv.step hi hok hs).1

/-- Along every run whose ranges meet the condition the items are sound in every state reached,
and no entry a client held is ever lost. -/
theorem transcript_sound {s s' : World β} (h : (transcriptSystem β).ReachableBy StepOk s)
    (hs : (transcriptSystem β).Steps StepOk s s') :
    Sound s'.1 s'.2 ∧ ∀ e ∈ itemEntries s.2.items, e ∈ itemEntries s'.2.items := by
  have hi := Inv.reachable h
  have hi' := Inv.reachable (h.steps hs)
  refine ⟨hi'.sound, ?_⟩
  rw [hi.built, hi'.built, itemEntries_build, itemEntries_build]
  exact hs.relation (R := fun s s' => ∀ e ∈ s.2.entries, e ∈ s'.2.entries)
    (fun _ _ he => he) (fun _ _ _ h₁ h₂ e he => h₂ e (h₁ e he))
    (fun _ _ _ hi hok hs => Inv.step hi hok hs) hi

def note (id : ℤ) : EntryRecord Unit := ⟨id, ()⟩

def windowOf (before : Option ℤ) (ids : List ℤ) : ConversationView Unit :=
  ⟨ids.map note, before⟩

def shortTranscript : List (EntryRecord Unit) := [note 3, note 5, note 10, note 11]

theorem merge_step (t : ConversationTranscript Unit) (revision : List (EntryRecord Unit))
    (view : ConversationView Unit) (hrev : revision <+: shortTranscript)
    (hb : ∀ b ∈ view.before, ∃ e ∈ revision, e.id = b)
    (he : view.entries = revision.filter (fun e => view.lo < (e.id : Bound))) :
    (transcriptSystem Unit).step (shortTranscript, t) (.merge view)
      (shortTranscript, merge t view) :=
  .merge view ⟨revision, hrev, hb, he⟩

theorem start_reachable (ok : World Unit → Event Unit → Prop) :
    (transcriptSystem Unit).ReachableBy ok (shortTranscript, empty) :=
  ⟨_, ⟨by unfold Increasing shortTranscript; decide, rfl⟩, .refl _⟩

/-- A gap that opened between two windows, and the page that fills it. -/
theorem transcript_sound_filled :
    let t := merge (merge empty (windowOf (some 3) [5])) (windowOf (some 10) [11])
    let t' := { t with filling := [(⟨5, 11⟩, .running ⟨5, 11⟩)] }
    Sound shortTranscript (gapLoaded t' ⟨5, 11⟩ ⟨[note 10], false⟩) ∧
      ∀ e ∈ itemEntries t.items,
        e ∈ itemEntries (gapLoaded t' ⟨5, 11⟩ ⟨[note 10], false⟩).items := by
  intro t t'
  have hfirst := merge_step empty [note 3, note 5] (windowOf (some 3) [5])
    ⟨[note 10, note 11], rfl⟩ (by decide) rfl
  have hsecond := merge_step (merge empty (windowOf (some 3) [5])) shortTranscript
    (windowOf (some 10) [11]) prefix_rfl (by decide) rfl
  have hcall : (transcriptSystem Unit).step (shortTranscript, t) (.fillGap ⟨5, 11⟩)
      (shortTranscript, t') := .fillGap ⟨5, 11⟩ rfl
  have hpage : (transcriptSystem Unit).step (shortTranscript, t')
      (.gapLoaded ⟨5, 11⟩ ⟨[note 10], false⟩)
      (shortTranscript, gapLoaded t' ⟨5, 11⟩ ⟨[note 10], false⟩) :=
    .gapLoaded ⟨5, 11⟩ ⟨[note 10], false⟩ rfl
      ⟨⟨[], rfl⟩, fun _ => rfl, fun h => absurd h (by simp)⟩
  have hok : ∀ {u : ConversationTranscript Unit} {view : ConversationView Unit},
      view.hi ≠ ⊥ → ¬ view.hi < u.low → StepOk (shortTranscript, u) (.merge view) :=
    fun hbot hlt => ⟨fun h => absurd h hbot, fun _ h => absurd h hlt⟩
  exact transcript_sound
    ((start_reachable StepOk).steps (.tail (.tail (.refl _) hfirst
      (hok (by decide) (by decide))) hsecond (hok (by decide) (by decide))))
    (.tail (.tail (.refl _) hcall trivial) hpage trivial)

/-- Two stale empty windows, one below the other, leave two gaps that overlap; an empty window of
the first revision drops the `earlier` item although entries before the oldest one are missing. -/
theorem stale_windows_unsound :
    (∃ s, (transcriptSystem Unit).Reachable s ∧ s.2 = merge (merge (merge empty (windowOf (some 10)
      [11])) (windowOf (some 5) [])) (windowOf (some 3) []) ∧ ¬ Sound s.1 s.2) ∧
    ∃ s, (transcriptSystem Unit).Reachable s ∧
      s.2 = merge (merge empty (windowOf (some 10) [11])) (windowOf none []) ∧ ¬ Sound s.1 s.2 := by
  have hstart := merge_step empty shortTranscript (windowOf (some 10) [11]) prefix_rfl
    (by decide) rfl
  have hfive := merge_step (merge empty (windowOf (some 10) [11])) [note 3, note 5]
    (windowOf (some 5) []) ⟨[note 10, note 11], rfl⟩ (by decide) rfl
  have hthree := merge_step (merge (merge empty (windowOf (some 10) [11])) (windowOf (some 5) []))
    [note 3] (windowOf (some 3) []) ⟨[note 5, note 10, note 11], rfl⟩ (by decide) rfl
  have hnone := merge_step (merge empty (windowOf (some 10) [11])) [] (windowOf none [])
    nil_prefix (by decide) rfl
  refine ⟨⟨_, (start_reachable _).steps (.tail (.tail (.tail (.refl _) hstart trivial) hfive
    trivial) hthree trivial), rfl, ?_⟩,
    ⟨_, (start_reachable _).steps (.tail (.tail (.refl _) hstart trivial) hnone trivial), rfl, ?_⟩⟩
  · intro hs
    have hgaps : itemGaps (merge (merge (merge empty (windowOf (some 10) [11]))
        (windowOf (some 5) [])) (windowOf (some 3) [])).items = [⟨3, 11⟩, ⟨5, 11⟩] := rfl
    have hp := hs.ordered
    rw [hgaps] at hp
    exact ((pairwise_cons.mp hp).1 ⟨5, 11⟩ (by simp)).2.2 6 ⟨by decide, by decide⟩
  · intro hs
    have hitems : (merge (merge empty (windowOf (some 10) [11])) (windowOf none [])).items =
        [.entry (note 11)] := rfl
    have himp := hs.earlier
    rw [hitems] at himp
    refine absurd (himp ⟨note 3, by simp [shortTranscript],
      ⟨.entry (note 11), by simp, by simp⟩, ?_, ?_, ?_⟩) (by simp)
    · intro item hitem
      rw [mem_singleton.mp hitem]
      show (3 : ℤ) < 11
      decide
    · simp [itemEntries, note]
    · simp [itemGaps]

end KnightCode.Transcript
