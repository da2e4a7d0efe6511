import KnightCode.Durable.MemoryEntries

/-!
# What the reads of entries give

In a state whose indexes are sorted and whose forks lie below their entries, every read of a
conversation is a part of one list: the entries it sees, newest first.
-/

namespace KnightCode.Memory

open List Option SortedIds

variable {ρ : Type}

namespace State
variable {id : ℤ} {upper : Option ℤ} {own : List (EntryRecord ρ)}

/-- The indexes of entries, and the tree of forks. -/
structure Forest (s : State ρ) : Prop where
  sorted : ∀ c, (s.ownIds c).Pairwise (· < ·)
  own : ∀ c id, id ∈ s.ownIds c ↔ ∃ e, Assoc.get id s.entries = some e ∧ e.conversationId = c
  ids : ∀ id e, Assoc.get id s.entries = some e → e.id = id
  safe : ∀ id e, Assoc.get id s.entries = some e → 0 ≤ id ∧ id ≤ MAX_SAFE_INTEGER
  home : ∀ id e, Assoc.get id s.entries = some e →
    (Assoc.get e.conversationId s.conversations).isSome = true
  headSorted : ∀ c, (s.headIds c).Pairwise (· < ·)
  heads : ∀ c id, id ∈ s.headIds c ↔
    id ∈ s.ownIds c ∧ ∃ e, Assoc.get id s.entries = some e ∧ e.head.isSome = true
  rank : ∃ rank : ℤ → ℕ, ∀ c r, Assoc.get c s.conversations = some r →
    rank c < s.conversations.length ∧ ∀ f, r.parent = some f →
      (Assoc.get f.conversationId s.conversations).isSome = true ∧ rank f.conversationId < rank c
  fork : ∀ c r f, Assoc.get c s.conversations = some r → r.parent = some f →
    s.Sees f.conversationId f.at' ∧ ∀ id ∈ s.ownIds c, f.at' < id

/-- The entries a conversation sees between two bounds, newest first. -/
structure Shows (s : State ρ) (c : ℤ) (minId maxId : Option ℤ) (l : List (EntryRecord ρ)) :
    Prop where
  sorted : (l.map (·.id)).Pairwise (· > ·)
  mem : ∀ id, id ∈ l.map (·.id) ↔
    s.Sees c id ∧ minId.all (· ≤ id) = true ∧ maxId.all (id ≤ ·) = true
  stored : ∀ e ∈ l, Assoc.get e.id s.entries = some e

variable {s : State ρ} {c : ℤ} {minId maxId : Option ℤ} {l l' : List (EntryRecord ρ)}

theorem eq_filterMap_of_stored (h : ∀ e ∈ l, Assoc.get e.id s.entries = some e) :
    l = (l.map (·.id)).filterMap fun id => Assoc.get id s.entries := by
  induction l with
  | nil => rfl
  | cons e l ih =>
    rw [map_cons, filterMap_cons, h e mem_cons_self]
    exact congrArg (e :: ·) (ih fun e' he' => h e' (mem_cons_of_mem _ he'))

theorem Shows.unique (h : s.Shows c minId maxId l) (h' : s.Shows c minId maxId l') : l = l' := by
  have hids : l.map (·.id) = l'.map (·.id) := by
    refine h.sorted.eq_of_mem_iff h'.sorted fun id => ?_
    rw [h.mem, h'.mem]
  rw [eq_filterMap_of_stored h.stored, eq_filterMap_of_stored h'.stored, hids]

theorem Shows.filter (h : s.Shows c none none l) :
    s.Shows c minId maxId (l.filter fun e => minId.all (· ≤ e.id) && maxId.all (e.id ≤ ·)) := by
  refine ⟨?_, fun id => ?_, fun e he => h.stored e (mem_filter.mp he).1⟩
  · exact h.sorted.sublist (filter_sublist.map _)
  · constructor
    · intro hid
      obtain ⟨e, he, rfl⟩ := mem_map.mp hid
      obtain ⟨hmem, hin⟩ := mem_filter.mp he
      rw [Bool.and_eq_true] at hin
      exact ⟨((h.mem e.id).mp (mem_map_of_mem hmem)).1, hin.1, hin.2⟩
    · rintro ⟨hsees, hmin, hmax⟩
      obtain ⟨e, he, rfl⟩ := mem_map.mp ((h.mem id).mpr ⟨hsees, rfl, rfl⟩)
      exact mem_map.mpr ⟨e, mem_filter.mpr ⟨he, by rw [hmin, hmax]; rfl⟩, rfl⟩

/-! ### One segment -/

theorem lookup_ids {ids : List ℤ}
    (h : ∀ id ∈ ids, ∃ e, Assoc.get id s.entries = some e ∧ e.id = id) :
    ∃ l, ids.mapM s.lookup = .ok l ∧ l.map (·.id) = ids ∧
      ∀ e ∈ l, Assoc.get e.id s.entries = some e := by
  induction ids with
  | nil => exact ⟨[], rfl, rfl, fun e he => (by cases he)⟩
  | cons id ids ih =>
    obtain ⟨e, he, rfl⟩ := h id mem_cons_self
    obtain ⟨l, hl, hids, hstored⟩ := ih fun id hid => h id (mem_cons_of_mem _ hid)
    refine ⟨e :: l, ?_, by rw [map_cons, hids], fun e' he' => ?_⟩
    · have hfirst : s.lookup e.id = .ok e := by rw [lookup, he]
      rw [mapM_cons, hfirst, hl]
      rfl
    · obtain rfl | he' := mem_cons.mp he'
      · exact he
      · exact hstored e' he'

/-- The ids of a conversation's own entries between two bounds. -/
def between (s : State ρ) (c : ℤ) (minId maxId : Option ℤ) : List ℤ :=
  (s.ownIds c).filter fun id => minId.all (· ≤ id) && maxId.all (id ≤ ·)

theorem take_upperIndex {ids : List ℤ} (h : ids.Pairwise (· < ·)) (upper : Option ℤ) :
    ids.take (upperIndex ids upper) = ids.filter fun id => upper.all (id ≤ ·) := by
  cases upper with
  | none =>
    rw [upperIndex, take_length]
    exact (filter_eq_self.mpr fun _ _ => rfl).symm
  | some upper => exact (upperBound_spec h upper).1

theorem not_any_lt : (!minId.any (id < ·)) = minId.all (· ≤ id) := by
  cases minId with
  | none => rfl
  | some m =>
    rw [any_some, all_some, ← decide_not]
    exact decide_eq_decide.mpr not_lt

theorem not_any_gt : (!maxId.any (· < id)) = maxId.all (id ≤ ·) := by
  cases maxId with
  | none => rfl
  | some m =>
    rw [any_some, all_some, ← decide_not]
    exact decide_eq_decide.mpr not_lt

theorem all_le_of_lt {a b : ℤ} (hab : a < b) (h : minId.all (· ≤ a) = true) :
    minId.all (· ≤ b) = true := by
  cases minId with
  | none => rfl
  | some m => exact decide_eq_true ((of_decide_eq_true h).trans hab.le)

theorem all_ge_of_lt {a b : ℤ} (hab : a < b) (h : maxId.all (b ≤ ·) = true) :
    maxId.all (a ≤ ·) = true := by
  cases maxId with
  | none => rfl
  | some m => exact decide_eq_true (hab.le.trans (of_decide_eq_true h))

theorem descending_between (hs : s.Forest) (upper : Option ℤ) :
    (((s.ownIds c).take (upperIndex (s.ownIds c) upper)).reverse).takeWhile
      (fun id => !minId.any (id < ·)) = (s.between c minId upper).reverse := by
  rw [take_upperIndex (hs.sorted c), takeWhile_eq_filter, between, ← filter_reverse,
    ← filter_reverse, List.filter_filter]
  · refine filter_congr fun id _ => ?_
    rw [not_any_lt]
  · refine pairwise_reverse.mpr (((hs.sorted c).filter _).imp fun hlt hyes => ?_)
    rw [not_any_lt] at hyes ⊢
    exact all_le_of_lt hlt hyes

theorem ascending_between (hs : s.Forest) (upper : Option ℤ) :
    ((s.ownIds c).drop (minId.elim 0 (lowerBound (s.ownIds c) ·))).takeWhile
      (fun id => !upper.any (· < id)) = s.between c minId upper := by
  have hdrop : (s.ownIds c).drop (minId.elim 0 (lowerBound (s.ownIds c) ·)) =
      (s.ownIds c).filter fun id => minId.all (· ≤ id) := by
    cases minId with
    | none => exact (filter_eq_self.mpr fun _ _ => rfl).symm
    | some m => exact (lowerBound_spec (hs.sorted c) m).2
  rw [hdrop, takeWhile_eq_filter, between, List.filter_filter]
  · refine filter_congr fun id _ => ?_
    rw [not_any_gt, Bool.and_comm]
  · refine ((hs.sorted c).filter _).imp fun hlt hyes => ?_
    rw [not_any_gt] at hyes ⊢
    exact all_ge_of_lt hlt hyes

theorem mem_between : id ∈ s.between c minId upper ↔
    id ∈ s.ownIds c ∧ minId.all (· ≤ id) = true ∧ upper.all (id ≤ ·) = true := by
  rw [between, mem_filter, Bool.and_eq_true]

theorem between_stored (hs : s.Forest) (h : id ∈ s.between c minId upper) :
    ∃ e, Assoc.get id s.entries = some e ∧ e.id = id := by
  obtain ⟨e, he, -⟩ := (hs.own c id).mp (mem_between.mp h).1
  exact ⟨e, he, hs.ids id e he⟩

theorem segment_reads (hs : s.Forest) (c : ℤ) (minId upper : Option ℤ) :
    ∃ own, (s.between c minId upper).reverse.mapM s.lookup = .ok own ∧
      s.segmentEntries minId (c, upper) = .ok own.reverse ∧
      own.map (·.id) = (s.between c minId upper).reverse ∧
      ∀ e ∈ own, Assoc.get e.id s.entries = some e := by
  obtain ⟨l, hl, hids, hstored⟩ := @lookup_ids ρ s (s.between c minId upper)
    fun id hid => between_stored hs hid
  obtain ⟨own, hown, hids', hstored'⟩ := @lookup_ids ρ s (s.between c minId upper).reverse
    fun id hid => between_stored hs (mem_reverse.mp hid)
  have hreverse : own.reverse = l := by
    rw [eq_filterMap_of_stored hstored, eq_filterMap_of_stored hstored', hids, hids',
      ← filterMap_reverse, reverse_reverse]
  refine ⟨own, hown, ?_, hids', hstored'⟩
  rw [segmentEntries, ascending_between hs, hl, hreverse]

/-! ### The walk over the fork chain -/

theorem sees_iff (hs : s.Forest) (hc : Assoc.get c s.conversations = some r) :
    s.Sees c id ↔ id ∈ s.ownIds c ∨
      ∃ f, r.parent = some f ∧ id ≤ f.at' ∧ s.Sees f.conversationId id := by
  constructor
  · intro h
    cases h with
    | own hentry hown => exact .inl ((hs.own _ _).mpr ⟨_, hentry, hown⟩)
    | inherited hconversation hparent hat hsees =>
      rw [hc] at hconversation
      cases hconversation
      exact .inr ⟨_, hparent, hat, hsees⟩
  · rintro (hid | ⟨f, hparent, hat, hsees⟩)
    · obtain ⟨entry, hentry, hown⟩ := (hs.own c id).mp hid
      exact .own hentry hown
    · exact .inherited hc hparent hat hsees

theorem all_lower {at' : ℤ} :
    (some (lower upper at')).all (id ≤ ·) = true ↔ id ≤ at' ∧ upper.all (id ≤ ·) = true := by
  rw [all_some, decide_eq_true_iff, lower]
  cases upper with
  | none => exact (and_iff_left rfl).symm
  | some u =>
    rw [elim_some, le_min_iff, all_some, decide_eq_true_iff]
    exact and_comm

theorem Shows.append (hs : s.Forest) {r : ConversationRecord} {f : Fork} {upper : Option ℤ}
    (hc : Assoc.get c s.conversations = some r) (hf : r.parent = some f)
    {own rest : List (EntryRecord ρ)} (hids : own.map (·.id) = (s.between c minId upper).reverse)
    (hown : ∀ e ∈ own, Assoc.get e.id s.entries = some e)
    (hrest : s.Shows f.conversationId minId (some (lower upper f.at')) rest) :
    s.Shows c minId upper (own ++ rest) := by
  refine ⟨?_, fun id => ?_, fun e he => ?_⟩
  · rw [map_append, hids]
    refine pairwise_append.mpr ⟨?_, hrest.sorted, fun a ha b hb => ?_⟩
    · exact pairwise_reverse.mpr ((hs.sorted c).filter _)
    · have hfork := (hs.fork c r f hc hf).2 a (mem_between.mp (mem_reverse.mp ha)).1
      have hle := (all_lower.mp ((hrest.mem b).mp hb).2.2).1
      exact lt_of_le_of_lt hle hfork
  · rw [map_append, hids, mem_append, mem_reverse, mem_between, hrest.mem, all_lower,
      sees_iff hs hc]
    constructor
    · rintro (⟨hid, hmin, hmax⟩ | ⟨hsees, hmin, hat, hmax⟩)
      · exact ⟨.inl hid, hmin, hmax⟩
      · exact ⟨.inr ⟨f, hf, hat, hsees⟩, hmin, hmax⟩
    · rintro ⟨hid | ⟨f', hf', hat, hsees⟩, hmin, hmax⟩
      · exact .inl ⟨hid, hmin, hmax⟩
      · rw [hf] at hf'
        cases hf'
        exact .inr ⟨hsees, hmin, hat, hmax⟩
  · obtain he | he := mem_append.mp he
    · exact hown e he
    · exact hrest.stored e he

theorem Shows.of_own (hs : s.Forest) (hc : Assoc.get c s.conversations = some r)
    (hnone : ∀ f, r.parent = some f → ∀ id, id ≤ f.at' → upper.all (id ≤ ·) = true →
      minId.all (· ≤ id) = false) (hids : own.map (·.id) = (s.between c minId upper).reverse)
    (hown : ∀ e ∈ own, Assoc.get e.id s.entries = some e) : s.Shows c minId upper own := by
  refine ⟨?_, fun id => ?_, hown⟩
  · rw [hids]
    exact pairwise_reverse.mpr ((hs.sorted c).filter _)
  · rw [hids, mem_reverse, mem_between, sees_iff hs hc]
    constructor
    · rintro ⟨hid, hmin, hmax⟩
      exact ⟨.inl hid, hmin, hmax⟩
    · rintro ⟨hid | ⟨f, hf, hat, -⟩, hmin, hmax⟩
      · exact ⟨hid, hmin, hmax⟩
      · rw [hnone f hf id hat hmax] at hmin
        cases hmin

theorem any_lt_iff {m : ℤ} : minId.any (m < ·) = true ↔ minId.all (· ≤ m) = false := by
  rw [← not_any_lt, Bool.not_eq_false']

variable {fuel : ℕ}

theorem loops_last {upper : Option ℤ} {r : ConversationRecord} {own : List (EntryRecord ρ)}
    (hs : s.Forest) (hown : (s.between c minId upper).reverse.mapM s.lookup = .ok own)
    (hc : Assoc.get c s.conversations = some r)
    (hlast : ∀ f, r.parent = some f → minId.any (lower upper f.at' < ·) = true) :
    s.visibleFrom minId (fuel + 1) c upper = .ok own ∧
      s.segmentsFrom minId (fuel + 1) c upper = .ok [(c, upper)] := by
  rw [visibleFrom, segmentsFrom]
  dsimp only
  rw [descending_between hs, hown, hc]
  dsimp only [bind, Except.bind]
  cases hf : r.parent with
  | none => exact ⟨rfl, rfl⟩
  | some f =>
    dsimp only
    rw [if_pos (hlast f hf), if_pos (hlast f hf)]
    exact ⟨rfl, rfl⟩

theorem loops_parent {f : Fork} {rest : List (EntryRecord ρ)} {segments : List (ℤ × Option ℤ)}
    (hs : s.Forest) (hown : (s.between c minId upper).reverse.mapM s.lookup = .ok own)
    (hc : Assoc.get c s.conversations = some r) (hf : r.parent = some f)
    (habove : ¬ minId.any (lower upper f.at' < ·) = true)
    (hrest : s.visibleFrom minId fuel f.conversationId (some (lower upper f.at')) = .ok rest)
    (hsegments : s.segmentsFrom minId fuel f.conversationId (some (lower upper f.at')) =
      .ok segments) :
    s.visibleFrom minId (fuel + 1) c upper = .ok (own ++ rest) ∧
      s.segmentsFrom minId (fuel + 1) c upper = .ok ((c, upper) :: segments) := by
  rw [visibleFrom, segmentsFrom]
  dsimp only
  rw [descending_between hs, hown, hc]
  dsimp only [bind, Except.bind]
  rw [hf]
  dsimp only
  rw [if_neg habove, if_neg habove, hrest, hsegments]
  exact ⟨rfl, rfl⟩

theorem walk_shows (hs : s.Forest) {rank : ℤ → ℕ}
    (hrank : ∀ c r, Assoc.get c s.conversations = some r → ∀ f, r.parent = some f →
      (Assoc.get f.conversationId s.conversations).isSome = true ∧ rank f.conversationId < rank c)
    {upper : Option ℤ} {r : ConversationRecord} (hc : Assoc.get c s.conversations = some r)
    (hfuel : rank c < fuel) :
    ∃ l segments parts, s.visibleFrom minId fuel c upper = .ok l ∧ s.Shows c minId upper l ∧
      s.segmentsFrom minId fuel c upper = .ok segments ∧
      segments.reverse.mapM (s.segmentEntries minId) = .ok parts ∧ parts.flatten = l.reverse := by
  induction fuel generalizing c upper r with
  | zero => exact absurd hfuel (Nat.not_lt_zero _)
  | succ fuel ih =>
    obtain ⟨own, hown, hsegment, hids, hstored⟩ := segment_reads hs c minId upper
    have halone : [(c, upper)].mapM (s.segmentEntries minId) = .ok [own.reverse] := by
      rw [mapM_cons, hsegment]
      rfl
    have hflat : [own.reverse].flatten = own.reverse := by
      rw [flatten_cons, flatten_nil, append_nil]
    by_cases hlast : ∀ f, r.parent = some f → minId.any (lower upper f.at' < ·) = true
    · obtain ⟨hvisible, hsegments⟩ := @loops_last ρ s c minId fuel upper r own hs hown hc hlast
      refine ⟨own, _, _, hvisible, ?_, hsegments, halone, hflat⟩
      refine Shows.of_own hs hc (fun f hf id hat hmax => ?_) hids hstored
      have hle := of_decide_eq_true (all_lower.mpr ⟨hat, hmax⟩)
      have hbelow := any_lt_iff.mp (hlast f hf)
      refine Bool.eq_false_iff.mpr fun hmin => ?_
      obtain heq | hlt := eq_or_lt_of_le hle
      · rw [heq, hbelow] at hmin
        cases hmin
      · rw [all_le_of_lt hlt hmin] at hbelow
        cases hbelow
    · push Not at hlast
      obtain ⟨f, hf, habove⟩ := hlast
      obtain ⟨hsome, hlt⟩ := hrank c r hc f hf
      obtain ⟨r', hr'⟩ := isSome_iff_exists.mp hsome
      obtain ⟨rest, segments, parts, hrest, hshows, hsegments, hparts, hrestflat⟩ :=
        @ih f.conversationId (some (lower upper f.at')) r' hr'
          (lt_of_lt_of_le hlt (Nat.le_of_lt_succ hfuel))
      obtain ⟨hvisible, hall⟩ := loops_parent hs hown hc hf habove hrest hsegments
      refine ⟨own ++ rest, _, parts ++ [own.reverse], hvisible,
        Shows.append hs hc hf hids hstored hshows, hall, ?_, ?_⟩
      · rw [reverse_cons, mapM_append, hparts, halone]
        rfl
      · rw [flatten_append, hrestflat, hflat, reverse_append]

/-! ### The newest head -/

theorem find_own_head (hs : s.Forest) (hids : own.map (·.id) = (s.between c none upper).reverse)
    (hstored : ∀ e ∈ own, Assoc.get e.id s.entries = some e) :
    own.find? (fun e => e.head.isSome) =
      (((s.headIds c).take (upperIndex (s.headIds c) upper)).getLast?).bind
        fun id => Assoc.get id s.entries := by
  have hheads : (s.headIds c).take (upperIndex (s.headIds c) upper) =
      ((own.filter fun e => e.head.isSome).map (·.id)).reverse := by
    rw [take_upperIndex (hs.headSorted c)]
    refine ((hs.headSorted c).filter _).eq_of_mem_iff ?_ fun id => ?_
    · refine pairwise_reverse.mpr (List.Pairwise.sublist (filter_sublist.map _) ?_)
      rw [hids]
      exact pairwise_reverse.mpr ((hs.sorted c).filter _)
    · rw [mem_reverse, mem_filter, hs.heads]
      constructor
      · rintro ⟨⟨hown, e, he, hhead⟩, hupper⟩
        have hmem : id ∈ own.map (·.id) := by
          rw [hids, mem_reverse, mem_between]
          exact ⟨hown, rfl, hupper⟩
        obtain ⟨e', he', rfl⟩ := mem_map.mp hmem
        rw [hstored e' he'] at he
        cases he
        exact mem_map_of_mem (mem_filter.mpr ⟨he', hhead⟩)
      · intro hid
        obtain ⟨e, he, rfl⟩ := mem_map.mp hid
        obtain ⟨hmem, hhead⟩ := mem_filter.mp he
        have hbetween : e.id ∈ s.between c none upper := by
          rw [← mem_reverse, ← hids]
          exact mem_map_of_mem hmem
        obtain ⟨hown, -, hupper⟩ := mem_between.mp hbetween
        exact ⟨⟨hown, e, hstored e hmem, hhead⟩, hupper⟩
  rw [hheads, getLast?_reverse, head?_map, ← head?_filter]
  cases hfirst : (own.filter fun e => e.head.isSome).head? with
  | none => rfl
  | some e =>
    exact (hstored e (mem_filter.mp (mem_of_head? hfirst)).1).symm

theorem headFrom_shows (hs : s.Forest) {rank : ℤ → ℕ}
    (hrank : ∀ c r, Assoc.get c s.conversations = some r → ∀ f, r.parent = some f →
      (Assoc.get f.conversationId s.conversations).isSome = true ∧ rank f.conversationId < rank c)
    {upper : Option ℤ} {r : ConversationRecord} (hc : Assoc.get c s.conversations = some r)
    (hfuel : rank c < fuel) :
    ∃ l, s.Shows c none upper l ∧
      s.headFrom fuel c upper = .ok (l.find? fun e => e.head.isSome) := by
  induction fuel generalizing c upper r with
  | zero => exact absurd hfuel (Nat.not_lt_zero _)
  | succ fuel ih =>
    obtain ⟨own, -, -, hids, hstored⟩ := segment_reads hs c none upper
    have hfind := find_own_head hs hids hstored
    -- The index finds an own head, or the walk goes on.
    have hstep : ∀ found, (r.parent = none → found = none) →
        (∀ f, r.parent = some f →
          s.headFrom fuel f.conversationId (some (lower upper f.at')) = .ok found) →
        s.headFrom (fuel + 1) c upper = .ok ((own.find? fun e => e.head.isSome).or found) := by
      intro found hlast hnext
      rw [headFrom]
      cases hid : ((s.headIds c).take (upperIndex (s.headIds c) upper)).getLast? with
      | some id =>
        rw [hid] at hfind
        obtain ⟨-, e, he, -⟩ := (hs.heads c id).mp (mem_of_mem_take (mem_of_getLast? hid))
        rw [hfind.trans he]
        dsimp only
        rw [lookup, he]
        rfl
      | none =>
        rw [hid] at hfind
        rw [hfind, hc]
        dsimp only
        cases hf : r.parent with
        | none => rw [hlast hf]; rfl
        | some f => exact hnext f hf
    cases hf : r.parent with
    | none =>
      have hroot : ∀ f, r.parent ≠ some f := fun f hf' => by
        rw [hf] at hf'
        cases hf'
      refine ⟨own, Shows.of_own hs hc (fun f hf' => absurd hf' (hroot f)) hids hstored, ?_⟩
      rw [hstep none (fun _ => rfl) fun f hf' => absurd hf' (hroot f), or_none]
    | some f =>
      obtain ⟨hsome, hlt⟩ := hrank c r hc f hf
      obtain ⟨r', hr'⟩ := isSome_iff_exists.mp hsome
      obtain ⟨rest, hshows, hrest⟩ := @ih f.conversationId (some (lower upper f.at')) r' hr'
        (lt_of_lt_of_le hlt (Nat.le_of_lt_succ hfuel))
      refine ⟨own ++ rest, Shows.append hs hc hf hids hstored hshows, ?_⟩
      rw [find?_append]
      refine hstep _ (fun hroot => ?_) fun f' hf' => ?_
      · rw [hf] at hroot
        cases hroot
      · obtain rfl := some.inj (hf.symm.trans hf')
        exact hrest

/-! ### The reads -/

/-- What a conversation sees, newest first. -/
def transcript (s : State ρ) (c : ℤ) : List (EntryRecord ρ) :=
  match s.visibleEntries c none none with
  | .ok l => l
  | .error _ => []

def bounded (minId maxId : Option ℤ) (l : List (EntryRecord ρ)) : List (EntryRecord ρ) :=
  l.filter fun e => minId.all (· ≤ e.id) && maxId.all (e.id ≤ ·)

variable {r : ConversationRecord}

theorem visible_shows (hs : s.Forest) (hc : Assoc.get c s.conversations = some r)
    (minId maxId : Option ℤ) :
    ∃ l, s.visibleEntries c minId maxId = .ok l ∧ s.Shows c minId maxId l ∧
      s.visibleEntriesAscending c minId maxId = .ok l.reverse := by
  obtain ⟨rank, hrank⟩ := hs.rank
  obtain ⟨l, segments, parts, hvisible, hshows, hsegments, hparts, hflat⟩ :=
    @walk_shows ρ s c minId s.conversations.length hs rank (fun c r hc => (hrank c r hc).2) maxId r
      hc (hrank c r hc).1
  refine ⟨l, ?_, hshows, ?_⟩
  · rw [visibleEntries, hc]
    exact hvisible
  · rw [visibleEntriesAscending, hc]
    dsimp only [bind, Except.bind]
    rw [hsegments]
    dsimp only
    rw [hparts, ← hflat]
    rfl

theorem transcript_shows (hs : s.Forest) (hc : Assoc.get c s.conversations = some r) :
    s.visibleEntries c none none = .ok (s.transcript c) ∧ s.Shows c none none (s.transcript c) := by
  obtain ⟨l, hl, hshows, -⟩ := visible_shows hs hc none none
  have htranscript : s.transcript c = l := by rw [transcript, hl]
  rw [htranscript]
  exact ⟨hl, hshows⟩

theorem visible_eq (hs : s.Forest) (hc : Assoc.get c s.conversations = some r)
    (minId maxId : Option ℤ) :
    s.visibleEntries c minId maxId = .ok (bounded minId maxId (s.transcript c)) ∧
      s.visibleEntriesAscending c minId maxId =
        .ok (bounded minId maxId (s.transcript c)).reverse := by
  obtain ⟨l, hl, hshows, hascending⟩ := visible_shows hs hc minId maxId
  have heq : l = bounded minId maxId (s.transcript c) :=
    hshows.unique (transcript_shows hs hc).2.filter
  rw [hl, hascending, heq]
  exact ⟨rfl, rfl⟩

theorem entry_eq (hs : s.Forest) (hc : Assoc.get c s.conversations = some r) (id : ℤ) :
    s.entry c id = .ok ((s.transcript c).find? fun e => e.id = id) := by
  rw [entry, (visible_eq hs hc (some id) (some id)).1]
  refine congrArg Except.ok ?_
  rw [← head?_filter, bounded]
  refine congrArg head? (filter_congr fun e _ => ?_)
  rw [all_some, all_some, ← Bool.decide_and]
  exact decide_eq_decide.mpr ⟨fun h => le_antisymm h.2 h.1, fun h => ⟨h.symm.le, h.le⟩⟩

theorem head_eq (hs : s.Forest) (hc : Assoc.get c s.conversations = some r) (cutoff : Option ℤ) :
    s.findLatestHeadMarker c cutoff =
      .ok ((bounded none cutoff (s.transcript c)).find? fun e => e.head.isSome) := by
  obtain ⟨rank, hrank⟩ := hs.rank
  obtain ⟨l, hshows, hhead⟩ := @headFrom_shows ρ s c s.conversations.length hs rank
    (fun c r hc => (hrank c r hc).2) cutoff r hc (hrank c r hc).1
  have heq : l = bounded none cutoff (s.transcript c) :=
    hshows.unique (transcript_shows hs hc).2.filter
  rw [findLatestHeadMarker, hc]
  dsimp only
  rw [hhead, heq]

end State

end KnightCode.Memory
