import KnightCode.Durable.Context
import Mathlib.Data.Int.Order.Basic

/-!
# The current context

What the view of a whole conversation shows: the newest head marker first, then the entries
without a head from the marker's head on, each with its newest edit. A view read again at the
tail it was read at is the same view, whatever was appended since.
-/

namespace KnightCode.Context

open List Option

variable {ρ : Type}

variable {entry : EntryRecord ρ}

theorem EntryRecord.marker_of_head {head : ℤ} (h : entry.head = some head) :
    entry.marker = some ⟨entry, head, h⟩ := by
  unfold marker
  split
  · rename_i hnone
    rw [h] at hnone
    cases hnone
  · rename_i other hother
    have heq : other = head := Option.some.inj (hother.symm.trans h)
    subst heq
    rfl

theorem EntryRecord.marker_of_none (h : entry.head = none) : entry.marker = none := by
  unfold marker
  split
  · rfl
  · rename_i head hhead
    rw [h] at hhead
    cases hhead

theorem EntryRecord.head_of_marker (h : entry.marker = none) : entry.head = none := by
  cases hhead : entry.head with
  | none => rfl
  | some head => rw [marker_of_head hhead] at h; cases h

theorem EntryRecord.entry_of_marker {marker : HeadMarker ρ} (h : entry.marker = some marker) :
    marker.entry = entry := by
  cases hhead : entry.head with
  | none => rw [marker_of_none hhead] at h; cases h
  | some head => rw [marker_of_head hhead] at h; cases h; rfl

namespace Visible

variable {t t' : Visible ρ} {appended : List (EntryRecord ρ)} {tail : ℤ}
variable {entry : EntryRecord ρ}

def marker (t : Visible ρ) : Option (HeadMarker ρ) := t.entries.reverse.findSome? (·.marker)

def kept (t : Visible ρ) (head : Option (HeadMarker ρ)) : List (EntryRecord ρ) :=
  t.entries.filter fun entry =>
    (head.all fun head => decide (head.head ≤ entry.id)) && entry.head.isNone

theorem marker_mem {head : HeadMarker ρ} (h : t.marker = some head) : head.entry ∈ t.entries := by
  obtain ⟨entry, hentry, hmarker⟩ := exists_of_findSome?_eq_some h
  rw [EntryRecord.entry_of_marker hmarker]
  exact mem_reverse.mp hentry

theorem le_of_kept {head : HeadMarker ρ} (h : t.marker = some head)
    (hentry : entry ∈ t.kept t.marker) : head.head ≤ entry.id := by
  have hfrom := (mem_filter.mp hentry).2
  rw [Bool.and_eq_true, h] at hfrom
  exact of_decide_eq_true hfrom.1

theorem head_of_marker_none (h : t.marker = none) :
    ∀ entry ∈ t.entries, entry.head = none := fun entry hentry =>
  EntryRecord.head_of_marker (findSome?_eq_none_iff.mp h entry (mem_reverse.mpr hentry))

theorem le_latest (h : t.latestEntryId = some tail) : ∀ entry ∈ t.entries, entry.id ≤ tail := by
  intro entry hentry
  obtain ⟨last, hlast, rfl⟩ := map_eq_some_iff.mp h
  obtain ⟨front, hfront⟩ := getLast?_eq_some_iff.mp hlast
  have hincreasing := t.increasing
  rw [hfront, pairwise_append] at hincreasing
  rw [hfront, mem_append] at hentry
  obtain hentry | hentry := hentry
  · exact le_of_lt (hincreasing.2.2 entry hentry last (mem_singleton_self last))
  · rw [mem_singleton.mp hentry]

theorem lt_of_appended (happended : t'.entries = t.entries ++ appended) {later : EntryRecord ρ}
    (hentry : entry ∈ t.entries) (hlater : later ∈ appended) : entry.id < later.id := by
  have hincreasing := t'.increasing
  rw [happended, pairwise_append] at hincreasing
  exact hincreasing.2.2 entry hentry later hlater

theorem latestHeadMarker_latest (h : t.latestEntryId = some tail) :
    t.latestHeadMarker tail = t.marker := by
  have hall : t.entries.filter (fun entry => entry.id ≤ tail) = t.entries :=
    filter_eq_self.mpr fun entry hentry => decide_eq_true (le_latest h entry hentry)
  rw [latestHeadMarker, hall, marker]

theorem tail_lt_appended (h : t.latestEntryId = some tail)
    (happended : t'.entries = t.entries ++ appended) : ∀ entry ∈ appended, tail < entry.id := by
  intro entry hentry
  obtain ⟨last, hlast, rfl⟩ := map_eq_some_iff.mp h
  exact lt_of_appended happended (mem_of_mem_getLast? hlast) hentry

theorem readContext_appended (h : t.latestEntryId = some tail)
    (happended : t'.entries = t.entries ++ appended) :
    t'.readContext (some tail) = t.readContext none := by
  have hlt := tail_lt_appended h happended
  have hmarker : t'.latestHeadMarker tail = t.latestHeadMarker tail := by
    have hdropped : appended.filter (fun entry => entry.id ≤ tail) = [] :=
      filter_eq_nil_iff.mpr fun entry hentry hle =>
        absurd (of_decide_eq_true hle) (not_le.mpr (hlt entry hentry))
    rw [latestHeadMarker, happended, filter_append, hdropped, append_nil, latestHeadMarker]
  have hvisible : t'.entries.any (fun entry => entry.id = tail) = true := by
    obtain ⟨last, hlast, hid⟩ := map_eq_some_iff.mp h
    refine any_eq_true.mpr ⟨last, ?_, decide_eq_true hid⟩
    rw [happended]
    exact mem_append_left _ (mem_of_mem_getLast? hlast)
  have hscan : ∀ bounds : ContextBounds ρ, bounds.tail = tail →
      t'.scanRange bounds = t.scanRange bounds := by
    rintro bounds rfl
    have hdropped : appended.filter (fun entry =>
        (bounds.head.all fun head => decide (head.head ≤ entry.id)) &&
          decide (entry.id ≤ bounds.tail)) = [] := by
      refine filter_eq_nil_iff.mpr fun entry hentry hin => ?_
      rw [Bool.and_eq_true, decide_eq_true_eq] at hin
      exact absurd hin.2 (not_le.mpr (hlt entry hentry))
    rw [scanRange, happended, filter_append, hdropped, append_nil, scanRange]
  simp only [readContext, captureContextBounds, hvisible, if_true, h, map_some, hmarker,
    Except.map, deriveContext]
  rw [hscan _ rfl]

structure Shows (t : Visible ρ) (view : ContextView ρ) : Prop where
  head : view.head = t.marker.map (·.entry)
  entries : view.entries = (t.marker.map (·.entry)).toList ++ t.kept t.marker
  contributions : ∃ first : List (List (Message ρ)),
    first.length = (t.marker.map (·.entry)).toList.length ∧
    (∀ head, t.marker = some head → head.head ≤ head.entry.id →
      first = [contribute head.entry (t.newestEdit head.entry.id)]) ∧
    view.contributions =
      first ++ (t.kept t.marker).map fun entry => contribute entry (t.newestEdit entry.id)

theorem shows_readContext {view : ContextView ρ} (h : t.readContext none = .ok view) :
    t.Shows view := by
  cases hlatest : t.latestEntryId with
  | none =>
    have hempty : t.entries = [] := getLast?_eq_none_iff.mp (map_eq_none_iff.mp hlatest)
    simp only [readContext, captureContextBounds, hlatest, map_none, Except.map,
      deriveContext, Except.ok.injEq] at h
    subst h
    have hmarker : t.marker = none := by simp [marker, hempty]
    constructor
    · simp [hmarker]
    · simp [hmarker, kept, hempty]
    · exact ⟨[], by simp [hmarker], by simp [hmarker], by simp [kept, hempty]⟩
  | some tail =>
    have hle := le_latest hlatest
    simp only [readContext, captureContextBounds, hlatest, map_some, Except.map,
      deriveContext, Except.ok.injEq, latestHeadMarker_latest hlatest] at h
    have hactive : selectActive t.marker (t.scanRange ⟨t.marker, tail⟩) =
        (t.marker.map (·.entry)).toList ++ t.kept t.marker := by
      have hscan : t.scanRange ⟨t.marker, tail⟩ = t.entries.filter
          (fun entry => t.marker.all fun head => decide (head.head ≤ entry.id)) :=
        filter_congr fun entry hentry => by simp [hle entry hentry]
      cases hmarker : t.marker with
      | none =>
        have hnone := head_of_marker_none hmarker
        rw [hmarker] at hscan
        have hkept : t.kept none = t.entries :=
          filter_eq_self.mpr fun entry hentry => by simp [hnone entry hentry]
        rw [selectActive, hscan, hkept]
        simp
      | some head =>
        rw [hmarker] at hscan
        rw [selectActive, hscan, List.filter_filter, kept]
        simp [Bool.and_comm]
    have hedit : ∀ id, (∀ head, t.marker = some head → head.head ≤ id) →
        Assoc.get id (editsOf (t.scanRange ⟨t.marker, tail⟩)) = t.newestEdit id := by
      intro id hfrom
      refine get_editsOf_range fun later hlater hlt => ?_
      rw [Bool.and_eq_true]
      refine ⟨?_, decide_eq_true (hle later hlater)⟩
      cases hmarker : t.marker with
      | none => rfl
      | some head => exact decide_eq_true (le_trans (hfrom head hmarker) (le_of_lt hlt))
    subst h
    constructor
    · rfl
    · exact hactive
    · refine ⟨(t.marker.map (·.entry)).toList.map fun entry => contribute entry
        (Assoc.get entry.id (editsOf (t.scanRange ⟨t.marker, tail⟩))), length_map _, ?_, ?_⟩
      · intro head hmarker hself
        have hown := hedit head.entry.id fun other hother =>
          Option.some.inj (hmarker.symm.trans hother) ▸ hself
        rw [← hown]
        simp [hmarker]
      · simp only [deriveRange, hactive, map_append]
        congr 1
        refine map_congr_left fun entry hentry => ?_
        rw [hedit entry.id fun head hmarker => le_of_kept hmarker hentry]

/-! ### Appended entries -/

theorem marker_appended (happended : t'.entries = t.entries ++ appended)
    (hheads : ∀ entry ∈ appended, entry.head = none) : t'.marker = t.marker := by
  have hnone : appended.reverse.findSome? (·.marker) = none :=
    findSome?_eq_none_iff.mpr fun entry hentry =>
      EntryRecord.marker_of_none (hheads entry (mem_reverse.mp hentry))
  rw [marker, happended, reverse_append, findSome?_append, hnone, none_or, marker]

theorem marker_placed {placed : EntryRecord ρ} {head : ℤ} (h : placed.head = some head)
    (hplaced : t'.entries = t.entries ++ [placed]) : t'.marker = some ⟨placed, head, h⟩ := by
  rw [marker, hplaced, reverse_append, findSome?_append]
  simp [EntryRecord.marker_of_head h]

theorem kept_appended {head : Option (HeadMarker ρ)}
    (happended : t'.entries = t.entries ++ appended)
    (hheads : ∀ entry ∈ appended, entry.head = none)
    (hfrom : ∀ marker, head = some marker → ∃ entry ∈ t.entries, marker.head ≤ entry.id) :
    t'.kept head = t.kept head ++ appended := by
  rw [kept, happended, filter_append, kept]
  congr 1
  refine filter_eq_self.mpr fun later hlater => ?_
  rw [hheads later hlater, isNone_none, Bool.and_true]
  cases head with
  | none => rfl
  | some marker =>
    obtain ⟨entry, hentry, hle⟩ := hfrom marker rfl
    exact decide_eq_true (le_trans hle (le_of_lt (lt_of_appended happended hentry hlater)))

theorem newestEdit_appended {id : ℤ} (happended : t'.entries = t.entries ++ appended)
    (hedits : ∀ entry ∈ appended, ∀ edit ∈ entry.edits.getD [], edit.target ≠ id) :
    t'.newestEdit id = t.newestEdit id := by
  have hnone : (appended.flatMap (·.edits.getD [])).filter (·.target = id) = [] := by
    refine filter_eq_nil_iff.mpr fun edit hedit htarget => ?_
    obtain ⟨entry, hentry, hedit⟩ := mem_flatMap.mp hedit
    exact hedits entry hentry edit hedit (of_decide_eq_true htarget)
  rw [newestEdit, newestEdit, get_editsOf, get_editsOf, happended, flatMap_append,
    filter_append, hnone, append_nil]

theorem newestEdit_newest (h : t.entries.getLast? = some entry) : t.newestEdit entry.id = none := by
  have hnone : (t.entries.flatMap (·.edits.getD [])).filter (·.target = entry.id) = [] := by
    refine filter_eq_nil_iff.mpr fun edit hedit htarget => ?_
    obtain ⟨other, hother, hedit⟩ := mem_flatMap.mp hedit
    have hlt : edit.target < other.id := t.earlier other hother edit hedit
    have hle : other.id ≤ entry.id := by
      refine le_latest ?_ other hother
      rw [latestEntryId, h, map_some]
    rw [of_decide_eq_true htarget] at hlt
    exact absurd hle (not_le.mpr hlt)
  rw [newestEdit, get_editsOf, hnone, getLast?_nil]

end Visible

theorem drop_eq_filter {entries : List (EntryRecord ρ)} (h : entries.Pairwise (·.id < ·.id))
    {index : ℕ} {first : EntryRecord ρ} (hfirst : entries[index]? = some first) :
    entries.drop index = entries.filter (fun entry => first.id ≤ entry.id) := by
  obtain ⟨hlt, hget⟩ := List.getElem?_eq_some_iff.mp hfirst
  have hdrop : entries.drop index = first :: entries.drop (index + 1) := by
    rw [drop_eq_getElem_cons hlt, hget]
  rw [← take_append_drop index entries, pairwise_append, hdrop,
    pairwise_cons] at h
  obtain ⟨-, ⟨hlater, -⟩, hearlier⟩ := h
  have hbefore : (entries.take index).filter (fun entry => first.id ≤ entry.id) = [] := by
    refine filter_eq_nil_iff.mpr fun entry hentry hle => ?_
    exact absurd (of_decide_eq_true hle)
      (not_le.mpr (hearlier entry hentry first mem_cons_self))
  have hafter : (entries.drop index).filter (fun entry => first.id ≤ entry.id) =
      entries.drop index := by
    refine filter_eq_self.mpr fun entry hentry => decide_eq_true ?_
    rw [hdrop, mem_cons] at hentry
    obtain rfl | hentry := hentry
    · exact le_refl _
    · exact le_of_lt (hlater entry hentry)
  conv_rhs => rw [← take_append_drop index entries]
  rw [filter_append, hbefore, hafter, nil_append]

end KnightCode.Context
