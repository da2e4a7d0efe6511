import Mathlib

/-!
# Binary search in sorted lists

A list is cut where a monotone condition ends; the search halves what is left of it. In a strictly
increasing list the elements before the cut are those below a bound, and inserting there keeps the
order.
-/

namespace SortedIds

open List Option

variable {α : Type*}
variable {l ids : List α}

def searchFrom (before : α → Bool) (l : List α) : ℕ → ℕ → ℕ → ℕ
  | 0, low, _ => low
  | fuel + 1, low, high =>
    if low < high then
      let middle := (low + high) / 2
      if l[middle]?.any before then searchFrom before l fuel (middle + 1) high
      else searchFrom before l fuel low middle
    else low

def search (before : α → Bool) (l : List α) : ℕ :=
  searchFrom before l l.length 0 l.length

theorem searchFrom_spec {before : α → Bool}
    (hl : l.Pairwise fun a b => before b = true → before a = true) {fuel low high : ℕ}
    (hfuel : high - low ≤ fuel) (hle : low ≤ high) (hhigh : high ≤ l.length)
    (hlow : ∀ a ∈ l.take low, before a = true) (hrest : ∀ a ∈ l.drop high, before a = false) :
    (∀ a ∈ l.take (searchFrom before l fuel low high), before a = true) ∧
      ∀ a ∈ l.drop (searchFrom before l fuel low high), before a = false := by
  induction fuel generalizing low high with
  | zero =>
    have heq : low = high := by omega
    subst heq
    exact ⟨hlow, hrest⟩
  | succ fuel ih =>
    rw [searchFrom]
    by_cases hlt : low < high
    · rw [if_pos hlt]
      dsimp only
      have hmiddle : (low + high) / 2 < l.length := by omega
      generalize hm : (low + high) / 2 = middle at hmiddle
      have hsplit : l = l.take middle ++ l[middle] :: l.drop (middle + 1) := by
        rw [getElem_cons_drop, take_append_drop]
      rw [hsplit] at hl
      obtain ⟨-, hright, hcross⟩ := pairwise_append.mp hl
      rw [getElem?_eq_getElem hmiddle, any_some]
      by_cases hbefore : before l[middle] = true
      · rw [if_pos hbefore]
        refine ih (by omega) (by omega) hhigh (fun a ha => ?_) hrest
        rw [take_add_one, getElem?_eq_getElem hmiddle] at ha
        obtain ha | ha := mem_append.mp ha
        · exact hcross a ha _ mem_cons_self hbefore
        · rw [mem_singleton.mp ha]
          exact hbefore
      · rw [if_neg hbefore]
        refine ih (by omega) (by omega) (by omega) hlow fun a ha => ?_
        rw [← getElem_cons_drop hmiddle] at ha
        obtain rfl | ha := mem_cons.mp ha
        · exact Bool.eq_false_iff.mpr hbefore
        · refine Bool.eq_false_iff.mpr fun hyes => hbefore ?_
          exact (pairwise_cons.mp hright).1 a ha hyes
    · rw [if_neg hlt]
      have heq : low = high := by omega
      subst heq
      exact ⟨hlow, hrest⟩

theorem search_spec {before : α → Bool} {l : List α}
    (hl : l.Pairwise fun a b => before b = true → before a = true) :
    l.take (search before l) = l.filter before ∧
      l.drop (search before l) = l.filter fun a => !before a := by
  obtain ⟨htake, hdrop⟩ := searchFrom_spec hl (Nat.sub_le l.length 0) (Nat.zero_le _) (le_refl _)
    (fun a ha => (by rw [take_zero] at ha; cases ha))
    (fun a ha => (by rw [drop_length] at ha; cases ha))
  change (∀ a ∈ l.take (search before l), _) at htake
  change (∀ a ∈ l.drop (search before l), _) at hdrop
  generalize search before l = n at htake hdrop
  have hleft : (l.drop n).filter before = [] :=
    filter_eq_nil_iff.mpr fun a ha => by rw [hdrop a ha]; decide
  have hright : (l.take n).filter (fun a => !before a) = [] :=
    filter_eq_nil_iff.mpr fun a ha => by rw [htake a ha]; decide
  constructor
  · have hall := congrArg (filter before) (take_append_drop n l)
    rw [filter_append, hleft, append_nil, filter_eq_self.mpr htake] at hall
    exact hall
  · have hall := congrArg (filter fun a => !before a) (take_append_drop n l)
    have hself : (l.drop n).filter (fun a => !before a) = l.drop n :=
      filter_eq_self.mpr fun a ha => by rw [hdrop a ha]; rfl
    rw [filter_append, hright, nil_append, hself] at hall
    exact hall

theorem takeWhile_eq_filter {p : α → Bool} (hl : l.Pairwise fun a b => p b = true → p a = true) :
    l.takeWhile p = l.filter p := by
  induction l with
  | nil => rfl
  | cons a l ih =>
    obtain ⟨hfirst, hrest⟩ := pairwise_cons.mp hl
    by_cases ha : p a = true
    · rw [takeWhile_cons_of_pos ha, filter_cons_of_pos ha, ih hrest]
    · rw [takeWhile_cons_of_neg ha, filter_cons_of_neg ha]
      exact (filter_eq_nil_iff.mpr fun b hb hyes => ha (hfirst b hb hyes)).symm

theorem filter_after_take {R : α → α → Prop} [DecidableRel R] (hR : ∀ a b, R a b → ¬ R b a) {n : ℕ}
    {last : α} (hl : l.Pairwise R) (hlast : (l.take n).getLast? = some last) :
    l.filter (fun a => decide (R last a)) = l.drop n := by
  obtain ⟨init, hinit⟩ := getLast?_eq_some_iff.mp hlast
  have hsplit : l = init ++ [last] ++ l.drop n := by rw [← hinit, take_append_drop]
  rw [hsplit] at hl
  obtain ⟨hfirst, -, hcross⟩ := pairwise_append.mp hl
  have hbefore : (init ++ [last]).filter (fun a => decide (R last a)) = [] := by
    refine filter_eq_nil_iff.mpr fun a ha hyes => ?_
    have hafter := of_decide_eq_true hyes
    obtain ha | ha := mem_append.mp ha
    · exact hR _ _ hafter
        ((pairwise_append.mp hfirst).2.2 a ha last (mem_singleton.mpr rfl))
    · rw [mem_singleton.mp ha] at hafter
      exact hR _ _ hafter hafter
  have hafter : (l.drop n).filter (fun a => decide (R last a)) = l.drop n := by
    refine filter_eq_self.mpr fun a ha => decide_eq_true ?_
    exact hcross last (mem_append_right _ (mem_singleton.mpr rfl)) a ha
  have hall := congrArg (filter fun a => decide (R last a)) hsplit
  rw [filter_append, hbefore, nil_append, hafter] at hall
  exact hall

variable [LinearOrder α]

/-- How many elements lie below `target`. -/
def lowerBound (ids : List α) (target : α) : ℕ :=
  search (fun id => decide (id < target)) ids

/-- How many elements lie at or below `target`. -/
def upperBound (ids : List α) (target : α) : ℕ :=
  search (fun id => decide (id ≤ target)) ids

def insertSorted (ids : List α) (id : α) : List α :=
  if ids.getLast?.all (· < id) then ids ++ [id]
  else ids.take (lowerBound ids id) ++ id :: ids.drop (lowerBound ids id)

theorem lowerBound_spec (h : ids.Pairwise (· < ·)) (target : α) :
    ids.take (lowerBound ids target) = ids.filter (fun id => decide (id < target)) ∧
      ids.drop (lowerBound ids target) = ids.filter fun id => decide (target ≤ id) := by
  obtain ⟨htake, hdrop⟩ := @search_spec α (fun id => decide (id < target)) ids <|
    h.imp fun hlt hb => decide_eq_true (hlt.trans (of_decide_eq_true hb))
  refine ⟨htake, hdrop.trans (filter_congr fun id _ => ?_)⟩
  rw [← decide_not]
  exact decide_eq_decide.mpr not_lt

theorem upperBound_spec (h : ids.Pairwise (· < ·)) (target : α) :
    ids.take (upperBound ids target) = ids.filter (fun id => decide (id ≤ target)) ∧
      ids.drop (upperBound ids target) = ids.filter fun id => decide (target < id) := by
  obtain ⟨htake, hdrop⟩ := @search_spec α (fun id => decide (id ≤ target)) ids <|
    h.imp fun hlt hb => decide_eq_true (hlt.le.trans (of_decide_eq_true hb))
  refine ⟨htake, hdrop.trans (filter_congr fun id _ => ?_)⟩
  rw [← decide_not]
  exact decide_eq_decide.mpr not_le

theorem mem_insertSorted {id a : α} : a ∈ insertSorted ids id ↔ a = id ∨ a ∈ ids := by
  unfold insertSorted
  split_ifs
  · rw [mem_append, mem_singleton]
    exact or_comm
  · rw [mem_append, mem_cons]
    have hmem : a ∈ ids ↔ a ∈ ids.take (lowerBound ids id) ∨ a ∈ ids.drop (lowerBound ids id) := by
      rw [← mem_append, take_append_drop]
    rw [hmem]
    exact or_left_comm

theorem insertSorted_pairwise {id : α} (h : ids.Pairwise (· < ·)) (hid : id ∉ ids) :
    (insertSorted ids id).Pairwise (· < ·) := by
  unfold insertSorted
  split_ifs with hlast
  · refine pairwise_append.mpr ⟨h, pairwise_singleton _ _, fun a ha b hb => ?_⟩
    rw [mem_singleton.mp hb]
    obtain hnil | ⟨init, last, rfl⟩ := ids.eq_nil_or_concat
    · rw [hnil] at ha
      cases ha
    · rw [concat_eq_append] at h hlast ha
      rw [getLast?_append, getLast?_singleton, some_or, all_some] at hlast
      have hlt : last < id := of_decide_eq_true hlast
      obtain ha | ha := mem_append.mp ha
      · exact ((pairwise_append.mp h).2.2 a ha last (mem_singleton.mpr rfl)).trans hlt
      · rw [mem_singleton.mp ha]
        exact hlt
  · obtain ⟨htake, hdrop⟩ := lowerBound_spec h id
    rw [htake, hdrop]
    have hne : ∀ a ∈ ids, a ≠ id := fun a ha heq => hid (heq ▸ ha)
    refine pairwise_append.mpr ⟨h.filter _, pairwise_cons.mpr ⟨fun b hb => ?_,
      h.filter _⟩, fun a ha b hb => ?_⟩
    · obtain ⟨hmem, hle⟩ := mem_filter.mp hb
      exact lt_of_le_of_ne (of_decide_eq_true hle) (hne b hmem).symm
    · have hlt : a < id := of_decide_eq_true (mem_filter.mp ha).2
      obtain rfl | hb := mem_cons.mp hb
      · exact hlt
      · exact lt_of_lt_of_le hlt (of_decide_eq_true (mem_filter.mp hb).2)

end SortedIds
