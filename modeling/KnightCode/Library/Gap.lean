import Mathlib.Algebra.Order.Ring.Int
import Mathlib.Data.List.Basic

/-!
# Lines with a gap

A gap is a place in a list of lines: the lines above it, its own line cut in two, and the lines
below. Whatever is inserted comes in before the gap, and what is taken away next to it is the end
of the text up to the gap or the beginning of the text from it on. `slice` is a part of a list
between two indexes, of which a negative one counts from the end.
-/

/-! ### Slices -/

namespace Slices

variable {α : Type*}

def position (length : ℕ) (index : ℤ) : ℕ :=
  min (if index < 0 then (length + index).toNat else index.toNat) length

def sliceTo (l : List α) (stop : ℤ) : List α :=
  l.take (position l.length stop)

def sliceFrom (l : List α) (start : ℤ) : List α :=
  l.drop (position l.length start)

def slice (l : List α) (start stop : ℤ) : List α :=
  (sliceTo l stop).drop (position l.length start)

theorem position_natCast {length n : ℕ} (h : n ≤ length) : position length n = n := by
  rw [position, if_neg (by omega), Int.toNat_natCast]
  omega

@[simp] theorem sliceTo_append (b a : List α) : sliceTo (b ++ a) b.length = b := by
  rw [sliceTo, position_natCast (by simp), List.take_left]

@[simp] theorem sliceFrom_append (b a : List α) : sliceFrom (b ++ a) b.length = a := by
  rw [sliceFrom, position_natCast (by simp), List.drop_left]

theorem slice_append (b m a : List α) :
    slice (b ++ (m ++ a)) b.length ((b.length + m.length : ℕ) : ℤ) = m := by
  rw [slice, ← List.append_assoc, ← List.length_append, sliceTo_append,
    position_natCast (by simp), List.drop_left]

@[simp] theorem sliceTo_length (l : List α) : sliceTo l l.length = l := by
  rw [sliceTo, position_natCast le_rfl, List.take_length]

@[simp] theorem sliceFrom_length (l : List α) : sliceFrom l l.length = [] := by
  rw [sliceFrom, position_natCast le_rfl, List.drop_length]

theorem exists_cut {l : List α} {index : ℤ} (hnonneg : 0 ≤ index) (hle : index ≤ l.length) :
    ∃ b a, l = b ++ a ∧ index = b.length := by
  refine ⟨l.take index.toNat, l.drop index.toNat, (List.take_append_drop _ _).symm, ?_⟩
  rw [List.length_take]
  omega

end Slices

/-! ### The gap -/

structure Gap (α : Type*) where
  above : List (List α)
  before : List α
  after : List α
  below : List (List α)

namespace Gap

variable {α : Type*}

def line (g : Gap α) : List α :=
  g.before ++ g.after

def lines (g : Gap α) : List (List α) :=
  g.above ++ g.line :: g.below

def upTo (sep : α) (g : Gap α) : List α :=
  g.above.flatMap (fun l => l ++ [sep]) ++ g.before

def onward (sep : α) (g : Gap α) : List α :=
  g.after ++ g.below.flatMap (fun l => sep :: l)

/-- Lines put in before the gap: the first of them goes on with its line, the last one is where
the gap is now. -/
def insert (g : Gap α) : List (List α) → Gap α
  | [] => g
  | [last] => ⟨g.above, g.before ++ last, g.after, g.below⟩
  | first :: second :: rest =>
    insert ⟨g.above ++ [g.before ++ first], [], g.after, g.below⟩ (second :: rest)

variable (sep : α) (g : Gap α) (ls : List (List α))

theorem intercalate_cons (l : List α) (ls : List (List α)) :
    [sep].intercalate (l :: ls) = l ++ ls.flatMap fun l => sep :: l := by
  induction ls generalizing l with
  | nil => simp [List.intercalate]
  | cons m ls ih =>
    have hm := ih m
    simp only [List.intercalate, List.intersperse_cons_cons, List.flatten_cons] at hm ⊢
    rw [hm, List.flatMap_cons]
    simp

theorem intercalate_append_cons (l : List α) (ms : List (List α)) :
    [sep].intercalate (ls ++ l :: ms) =
      ls.flatMap (fun l => l ++ [sep]) ++ [sep].intercalate (l :: ms) := by
  induction ls with
  | nil => rfl
  | cons first ls ih =>
    rw [List.cons_append, intercalate_cons, List.flatMap_cons, List.append_assoc, ← ih]
    cases ls with
    | nil | cons second ls => simp [intercalate_cons]

theorem text_lines : [sep].intercalate g.lines = g.upTo sep ++ g.onward sep := by
  rw [lines, intercalate_append_cons, intercalate_cons, line, upTo, onward]
  simp only [List.append_assoc]

theorem insert_onward : (g.insert ls).onward sep = g.onward sep := by
  induction g, ls using insert.induct with
  | case1 g => rfl
  | case2 g last => rfl
  | case3 g first second rest ih => exact ih

theorem insert_upTo : (g.insert ls).upTo sep = g.upTo sep ++ [sep].intercalate ls := by
  induction g, ls using insert.induct with
  | case1 g => simp [insert, List.intercalate]
  | case2 g last => simp [insert, upTo]
  | case3 g first second rest ih =>
    rw [insert, ih]
    simp [upTo, intercalate_cons]

theorem insert_several (first : List α) (between : List (List α)) (last : List α) :
    g.insert (first :: (between ++ [last])) =
      ⟨g.above ++ (g.before ++ first) :: between, last, g.after, g.below⟩ := by
  induction between generalizing g first with
  | nil => simp [insert]
  | cons second between ih =>
    rw [List.cons_append, insert, ih]
    simp

/-! ### Text taken away next to the gap -/

structure Taken (sep : α) (g h : Gap α) (x y : List α) : Prop where
  upTo : g.upTo sep = h.upTo sep ++ x
  onward : g.onward sep = y ++ h.onward sep

theorem Taken.refl : Taken sep g g [] [] :=
  ⟨(List.append_nil _).symm, rfl⟩

theorem Taken.trans {sep : α} {g h k : Gap α} {x y x' y' : List α} (hg : Taken sep g h x y)
    (hh : Taken sep h k x' y') : Taken sep g k (x' ++ x) (y ++ y') :=
  ⟨by rw [hg.upTo, hh.upTo, List.append_assoc], by rw [hg.onward, hh.onward, List.append_assoc]⟩

theorem Taken.length {sep : α} {g h : Gap α} {x y : List α} (hg : Taken sep g h x y) :
    ([sep].intercalate g.lines).length =
      ([sep].intercalate h.lines).length + (x.length + y.length) := by
  rw [text_lines, text_lines, hg.upTo, hg.onward]
  simp only [List.length_append]
  omega

variable [BEq α] [LawfulBEq α]

theorem Taken.restored {sep : α} {g h : Gap α} {x y : List α} (hg : Taken sep g h x y) :
    [sep].intercalate (h.insert ((x ++ y).splitOn sep)).lines = [sep].intercalate g.lines := by
  rw [text_lines, text_lines, insert_upTo, insert_onward, List.intercalate_splitOn, hg.upTo,
    hg.onward]
  simp only [List.append_assoc]

theorem insert_text (text : List α) :
    ([sep].intercalate (g.insert (text.splitOn sep)).lines).length =
      ([sep].intercalate g.lines).length + text.length := by
  rw [text_lines, text_lines, insert_upTo, insert_onward, List.intercalate_splitOn]
  simp only [List.length_append]
  omega

end Gap

/-! ### Gaps between units

A unit may stand for several symbols of another text. Insertion commutes with that, and what is cut
off at a column between two units is the units up to it. -/

namespace Gap

open List

variable {α β : Type*} {f : α → List β}

/-- The gap between the symbols that the units stand for. -/
def flat (f : α → List β) (g : Gap α) : Gap β :=
  ⟨g.above.map (flatMap f), g.before.flatMap f, g.after.flatMap f, g.below.map (flatMap f)⟩

variable (g : Gap α)

@[simp] theorem flat_above : (g.flat f).above = g.above.map (flatMap f) := rfl

@[simp] theorem flat_before : (g.flat f).before = g.before.flatMap f := rfl

@[simp] theorem flat_after : (g.flat f).after = g.after.flatMap f := rfl

@[simp] theorem flat_below : (g.flat f).below = g.below.map (flatMap f) := rfl

theorem flat_lines : (g.flat f).lines = g.lines.map (flatMap f) := by
  simp [lines, line]

theorem flat_insert (ls : List (List α)) :
    (g.insert ls).flat f = (g.flat f).insert (ls.map (flatMap f)) := by
  induction g, ls using insert.induct with
  | case1 g => rfl
  | case2 g last => simp [insert, flat]
  | case3 g first second rest ih =>
    rw [insert, ih]
    simp [insert, flat]

theorem splitOn_flatMap [BEq α] [LawfulBEq α] [BEq β] [LawfulBEq β] {p : α} {sep : β}
    (hsep : f p = [sep]) (hother : ∀ x, x ≠ p → sep ∉ f x) (l : List α) :
    (l.flatMap f).splitOn sep = (l.splitOn p).map (flatMap f) := by
  have hunit : ∀ (t u : List β), sep ∉ t →
      (t ++ u).splitOn sep = (u.splitOn sep).modifyHead (t ++ ·) := by
    intro t u ht
    induction t with
    | nil =>
      rw [nil_append]
      cases u.splitOn sep <;> rfl
    | cons c t ih =>
      rw [mem_cons, not_or] at ht
      rw [cons_append, splitOn_cons_eq_if_modifyHead, if_neg, ih ht.2]
      · cases u.splitOn sep <;> rfl
      · rw [beq_iff_eq]
        exact fun heq => ht.1 heq.symm
  induction l with
  | nil => simp
  | cons x l ih =>
    rw [flatMap_cons, splitOn_cons_eq_if_modifyHead]
    by_cases hx : x = p
    · rw [hx, hsep, singleton_append, splitOn_cons_eq_if_modifyHead, if_pos (by simp),
        if_pos (by simp), ih]
      rfl
    · rw [hunit _ _ (hother x hx), ih, if_neg (by simpa using hx)]
      cases l.splitOn p <;> rfl

theorem flatMap_intercalate {p : α} {sep : β} (hsep : f p = [sep]) (ls : List (List α)) :
    ([p].intercalate ls).flatMap f = [sep].intercalate (ls.map (flatMap f)) := by
  cases ls with
  | nil => rfl
  | cons l ls =>
    rw [map_cons, intercalate_cons, intercalate_cons, flatMap_append]
    congr 1
    induction ls with
    | nil => rfl
    | cons m ls ih => simp [hsep, ih]

theorem mem_intercalate {p x : α} {ls : List (List α)} (h : x ∈ [p].intercalate ls) :
    x = p ∨ x ∈ ls.flatten := by
  cases ls with
  | nil => cases h
  | cons l ls =>
    rw [intercalate_cons, mem_append, mem_flatMap] at h
    rw [flatten_cons, mem_append, mem_flatten]
    rcases h with hx | ⟨m, hm, hx⟩
    · exact .inr (.inl hx)
    · rcases mem_cons.mp hx with rfl | hx
      · exact .inl rfl
      · exact .inr (.inr ⟨m, hm, hx⟩)

/-! ### Units up to a column -/

/-- The units that fit into so many symbols, and the others. -/
def cut (f : α → List β) : ℕ → List α → List α × List α
  | _, [] => ([], [])
  | n, x :: rest =>
    if (f x).length ≤ n then
      (x :: (cut f (n - (f x).length) rest).1, (cut f (n - (f x).length) rest).2)
    else ([], x :: rest)

theorem cut_append (hf : ∀ x, f x ≠ []) (kept left : List α) :
    cut f (kept.flatMap f).length (kept ++ left) = (kept, left) := by
  induction kept with
  | nil =>
    cases left with
    | nil => rfl
    | cons x left =>
      have hpos := length_pos_iff.mpr (hf x)
      rw [nil_append, cut, if_neg]
      rw [flatMap_nil, length_nil]
      omega
  | cons x kept ih =>
    rw [cons_append, cut, flatMap_cons, length_append, if_pos (Nat.le_add_right _ _),
      Nat.add_sub_cancel_left, ih]

/-- The gap at a column of a line. -/
def seek (f : α → List β) (ls : List (List α)) (index col : ℕ) : Gap α :=
  ⟨ls.take index, (cut f col (ls[index]?.getD [])).1, (cut f col (ls[index]?.getD [])).2,
    ls.drop (index + 1)⟩

theorem seek_self (hf : ∀ x, f x ≠ []) (g : Gap α) :
    seek f g.lines (g.flat f).above.length (g.flat f).before.length = g := by
  have hline : g.lines[g.above.length]?.getD [] = g.before ++ g.after := by
    simp [lines, line]
  rw [seek, flat_above, length_map, flat_before, hline, cut_append hf]
  simp [lines]

/-! ### Units taken away -/

/-- What goes: the units of the line from a column to the gap, units behind the gap that are so
many symbols, the line's beginning, its end, or nothing. -/
inductive Range
  | back (start : ℕ)
  | onward (count : ℕ)
  | previous
  | next
  | nothing

def without (f : α → List β) (sep : α) (g : Gap α) : Range → Gap α × List α
  | .back start =>
    (⟨g.above, (cut f start g.before).1, g.after, g.below⟩, (cut f start g.before).2)
  | .onward count =>
    (⟨g.above, g.before, (cut f count g.after).2, g.below⟩, (cut f count g.after).1)
  | .previous =>
    match g.above.getLast? with
    | some previous => (⟨g.above.dropLast, previous ++ g.before, g.after, g.below⟩, [sep])
    | none => (g, [])
  | .next =>
    match g.below with
    | next :: below => (⟨g.above, g.before, g.after ++ next, below⟩, [sep])
    | [] => (g, [])
  | .nothing => (g, [])

/-! ### All the units -/

/-- The units of all lines. -/
def items (g : Gap α) : List α :=
  g.lines.flatten

theorem mem_items {g : Gap α} {x : α} : x ∈ g.items ↔
    (∃ l ∈ g.above, x ∈ l) ∨ x ∈ g.before ∨ x ∈ g.after ∨ ∃ l ∈ g.below, x ∈ l := by
  simp [items, lines, line]

theorem mem_items_insert {g : Gap α} {ls : List (List α)} {x : α} (h : x ∈ (g.insert ls).items) :
    x ∈ g.items ∨ ∃ l ∈ ls, x ∈ l := by
  induction g, ls using insert.induct with
  | case1 g => exact .inl h
  | case2 g last =>
    simp only [insert, mem_items, mem_append] at h ⊢
    simp only [mem_singleton, exists_eq_left]
    grind
  | case3 g first second rest ih =>
    rcases ih h with h | ⟨l, hl, hx⟩
    · simp only [mem_items, mem_append, mem_singleton, not_mem_nil, false_or,
        or_and_right, exists_or, exists_eq_left] at h ⊢
      simp only [mem_cons, or_and_right, exists_or, exists_eq_left]
      grind
    · exact .inr ⟨l, mem_cons_of_mem _ hl, hx⟩

theorem mem_cut (n : ℕ) (l : List α) {x : α} : x ∈ (cut f n l).1 ∨ x ∈ (cut f n l).2 ↔ x ∈ l := by
  induction l generalizing n with
  | nil => simp [cut]
  | cons y l ih =>
    rw [cut]
    split_ifs
    · simp only [mem_cons, or_assoc, ih]
    · simp

theorem mem_items_without {g : Gap α} {sep x : α} (r : Range) (h : x ∈ (g.without f sep r).1.items) :
    x ∈ g.items := by
  cases r with
  | back start =>
    have hcut := @mem_cut _ _ f start g.before x
    simp only [without, mem_items] at h ⊢
    grind
  | onward count =>
    have hcut := @mem_cut _ _ f count g.after x
    simp only [without, mem_items] at h ⊢
    grind
  | previous =>
    rw [without] at h
    rcases eq_nil_or_concat' g.above with hnil | ⟨above, previous, hconcat⟩
    · rw [hnil] at h
      exact h
    · rw [hconcat, getLast?_concat, dropLast_concat] at h
      simp only [mem_items, hconcat, mem_append, mem_singleton, or_and_right, exists_or,
        exists_eq_left] at h ⊢
      grind
  | next =>
    rw [without] at h
    cases hbelow : g.below with
    | nil =>
      rw [hbelow] at h
      exact h
    | cons next below =>
      rw [hbelow] at h
      simp only [mem_items, hbelow, mem_append, mem_cons, or_and_right, exists_or,
        exists_eq_left] at h ⊢
      grind
  | nothing => exact h

end Gap
