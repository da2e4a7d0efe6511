import KnightCode.Durable.MemoryEntriesRuns

/-!
# Pages

Each page of a scan is the first part of what remains after its cursor. Followed page by page, with
batches between the pages, a scan gives every entry between its bounds once: newest first those of
the state of the first page, oldest first those of the state of the last one.
-/

namespace KnightCode.Memory

open List Option SortedIds

variable {ρ : Type}

namespace State
variable {cursor : Option Cursor} {limit : ℕ} {after : Option ℤ}

def remaining (query : EntryQuery) (order : ScanOrder) (after : Option ℤ)
    (l : List (EntryRecord ρ)) : List (EntryRecord ρ) :=
  let part := bounded query.minEntryId query.maxEntryId l
  match order with
  | .descending => part.filter fun e => after.all (e.id < ·)
  | .ascending => part.reverse.filter fun e => after.all (· < e.id)

variable {s s' : State ρ} {c : ℤ} {r : ConversationRecord} {query : EntryQuery} {order : ScanOrder}

theorem bounded_narrow_descending (after : Option ℤ) (l : List (EntryRecord ρ)) :
    bounded (narrow query .descending after).1 (narrow query .descending after).2 l =
      remaining query .descending after l := by
  cases after with
  | none => exact (filter_eq_self.mpr fun _ _ => rfl).symm
  | some a =>
    rw [remaining, bounded, bounded, List.filter_filter]
    refine filter_congr fun e _ => ?_
    have hmax : (some (min (query.maxEntryId.getD a) (a - 1))).all (e.id ≤ ·) =
        ((some a).all (e.id < ·) && query.maxEntryId.all (e.id ≤ ·)) := by
      rw [all_some, all_some]
      cases query.maxEntryId with
      | none =>
        rw [getD_none, all_none, Bool.and_true]
        exact decide_eq_decide.mpr (by omega)
      | some m =>
        rw [getD_some, all_some, ← Bool.decide_and]
        exact decide_eq_decide.mpr (by omega)
    dsimp only [narrow]
    rw [hmax, Bool.and_left_comm]

theorem bounded_narrow_ascending (after : Option ℤ) (l : List (EntryRecord ρ)) :
    (bounded (narrow query .ascending after).1 (narrow query .ascending after).2 l).reverse =
      remaining query .ascending after l := by
  cases after with
  | none => exact (filter_eq_self.mpr fun _ _ => rfl).symm
  | some a =>
    rw [remaining, bounded, bounded, filter_reverse, List.filter_filter]
    refine congrArg reverse (filter_congr fun e _ => ?_)
    have hmin : (some (max (query.minEntryId.getD a) (a + 1))).all (· ≤ e.id) =
        ((some a).all (· < e.id) && query.minEntryId.all (· ≤ e.id)) := by
      rw [all_some, all_some]
      cases query.minEntryId with
      | none =>
        rw [getD_none, all_none, Bool.and_true]
        exact decide_eq_decide.mpr (by omega)
      | some m =>
        rw [getD_some, all_some, ← Bool.decide_and]
        exact decide_eq_decide.mpr (by omega)
    dsimp only [narrow]
    rw [hmin, Bool.and_assoc]

/-! ### One page -/

/-- A query asks for an order that the cursor continues, or leaves it to the cursor or the
default. -/
def Asks (requested : Option ScanOrder) (cursor : Option Cursor) (order : ScanOrder) : Prop :=
  requested = some order ∨ (requested = none ∧ (cursor.isSome = true ∨ order = .descending))

def Continues (s : State ρ) (c : ℤ) (order : ScanOrder) (cursor : Option Cursor) : Prop :=
  ∀ next, cursor = some next → next.order = some order ∧ s.Sees c next.after

theorem sees_stored {id : ℤ} (h : s.Sees c id) : ∃ e, Assoc.get id s.entries = some e := by
  induction h with
  | own hentry _ => exact ⟨_, hentry⟩
  | inherited _ _ _ _ ih => exact ih

variable {requested : Option ScanOrder}

theorem scanStart_ok (hs : s.Forest) (hasks : Asks requested cursor order)
    (hcontinues : s.Continues c order cursor) :
    scanStart requested cursor .descending = .ok (order, cursor.map (·.after)) := by
  cases cursor with
  | none =>
    obtain rfl | ⟨rfl, hyes | rfl⟩ := hasks
    · rfl
    · cases hyes
    · rfl
  | some next =>
    obtain ⟨horder, hsees⟩ := hcontinues next rfl
    obtain ⟨e, he⟩ := sees_stored hsees
    obtain ⟨hpos, hmax⟩ := hs.safe _ _ he
    have hvalid : ¬ (next.after < -MAX_SAFE_INTEGER ∨ MAX_SAFE_INTEGER < next.after) := by
      unfold MAX_SAFE_INTEGER at hmax ⊢
      omega
    rw [scanStart]
    dsimp only
    rw [if_neg hvalid, horder, getD_some, if_neg]
    · rfl
    · obtain rfl | ⟨rfl, -⟩ := hasks
      · rw [any_some]
        exact fun h => absurd rfl (of_decide_eq_true h)
      · exact Bool.false_ne_true

theorem scan_eq (hs : s.Forest) (hc : Assoc.get query.conversationId s.conversations = some r)
    (hlimit : 1 ≤ limit) (hasks : Asks requested cursor order)
    (hcontinues : s.Continues query.conversationId order cursor) :
    s.scanEntries { query with order := requested } limit cursor =
      .ok ⟨(remaining query order (cursor.map (·.after))
          (s.transcript query.conversationId)).take limit,
        if (remaining query order (cursor.map (·.after))
          (s.transcript query.conversationId)).length ≤ limit then none
        else ((remaining query order (cursor.map (·.after))
          (s.transcript query.conversationId)).take limit).getLast?.map
            fun e => ⟨e.id, some order⟩⟩ := by
  rw [scanEntries, scanStart_ok hs hasks hcontinues]
  dsimp only [bind, Except.bind]
  cases order with
  | descending =>
    dsimp only
    rw [(visible_eq hs hc _ _).1]
    dsimp only
    rw [← page_eq EntryRecord.id _ hlimit, ← bounded_narrow_descending]
    rfl
  | ascending =>
    dsimp only
    rw [(visible_eq hs hc _ _).2]
    dsimp only
    rw [← page_eq EntryRecord.id _ hlimit, ← bounded_narrow_ascending]
    rfl

/-! ### What remains after a page -/

theorem all_lt_of_lt {a b : ℤ} (hab : a < b) (h : after.all (b < ·) = true) :
    after.all (a < ·) = true := by
  cases after with
  | none => rfl
  | some m => exact decide_eq_true (hab.trans (of_decide_eq_true h))

theorem all_gt_of_lt {a b : ℤ} (hab : a < b) (h : after.all (· < a) = true) :
    after.all (· < b) = true := by
  cases after with
  | none => rfl
  | some m => exact decide_eq_true ((of_decide_eq_true h).trans hab)

variable {newer l : List (EntryRecord ρ)}

theorem remaining_append_descending {after : ℤ} (hnewer : ∀ e ∈ newer, after < e.id) :
    remaining query .descending (some after) (newer ++ l) =
      remaining query .descending (some after) l := by
  rw [remaining, remaining, bounded, bounded, filter_append, filter_append,
    filter_eq_nil_iff.mpr, nil_append]
  intro e he hlt
  exact lt_asymm (hnewer e (mem_filter.mp he).1) (of_decide_eq_true hlt)

theorem remaining_append_ascending (hnewer : ∀ e ∈ newer, after.all (· < e.id) = true) :
    remaining query .ascending after (newer ++ l) = remaining query .ascending after l ++
      (bounded query.minEntryId query.maxEntryId newer).reverse := by
  rw [remaining, remaining, bounded, bounded, filter_append, reverse_append,
    filter_append, ← bounded, ← bounded]
  refine congrArg _ (filter_eq_self.mpr fun e he => hnewer e ?_)
  exact (mem_filter.mp (mem_reverse.mp he)).1

theorem remaining_after {after : Option ℤ} {l : List (EntryRecord ρ)}
    (hl : (l.map (·.id)).Pairwise (· > ·)) {limit : ℕ} {last : EntryRecord ρ}
    (hlast : ((remaining query order after l).take limit).getLast? = some last) :
    remaining query order (some last.id) l = (remaining query order after l).drop limit := by
  have hmem := mem_of_mem_take (mem_of_getLast? hlast)
  have hids : l.Pairwise fun e e' => e'.id < e.id := pairwise_map.mp hl
  cases order with
  | descending =>
    have hbefore := (mem_filter.mp hmem).2
    have hpart : (remaining query .descending after l).Pairwise fun e e' => e'.id < e.id :=
      (hids.filter _).filter _
    rw [← filter_after_take (fun _ _ h h' => lt_asymm h h') hpart hlast, remaining, remaining,
      List.filter_filter]
    refine filter_congr fun e _ => ?_
    rw [all_some]
    by_cases hlt : e.id < last.id
    · rw [decide_eq_true hlt, Bool.true_and]
      exact (all_lt_of_lt hlt hbefore).symm
    · rw [decide_eq_false hlt, Bool.false_and]
  | ascending =>
    have hbefore := (mem_filter.mp hmem).2
    have hpart : (remaining query .ascending after l).Pairwise fun e e' => e.id < e'.id :=
      (pairwise_reverse.mpr (hids.filter _)).filter _
    rw [← filter_after_take (fun _ _ h h' => lt_asymm h h') hpart hlast, remaining, remaining,
      List.filter_filter]
    refine filter_congr fun e _ => ?_
    rw [all_some]
    by_cases hlt : last.id < e.id
    · rw [decide_eq_true hlt, Bool.true_and]
      exact (all_gt_of_lt hlt hbefore).symm
    · rw [decide_eq_false hlt, Bool.false_and]

/-! ### A whole scan -/

/-- Pages of one scan read one after another from a cursor on, with orderly batches between them,
the last of them in the state that follows. -/
inductive Pages (owned : ℕ → Bool) (query : EntryQuery) (order : ScanOrder) :
    State ρ → Option Cursor → List (EntryRecord ρ) → State ρ → Prop
  | last {s : State ρ} {cursor : Option Cursor} {items : List (EntryRecord ρ)} {limit : ℕ}
      {requested : Option ScanOrder} (hlimit : 1 ≤ limit) (hasks : Asks requested cursor order)
      (hpage : s.scanEntries { query with order := requested } limit cursor = .ok ⟨items, none⟩) :
      Pages owned query order s cursor items s
  | more {s s' t : State ρ} {cursor : Option Cursor} {items rest : List (EntryRecord ρ)}
      {next : Cursor} {limit : ℕ} {requested : Option ScanOrder} (hlimit : 1 ≤ limit)
      (hasks : Asks requested cursor order)
      (hpage : s.scanEntries { query with order := requested } limit cursor =
        .ok ⟨items, some next⟩)
      (hsteps : (memorySystem ρ owned).Steps Orderly s s')
      (hrest : Pages owned query order s' (some next) rest t) :
      Pages owned query order s cursor (items ++ rest) t

/-- The transcript a scan follows: newest first that of its first page, oldest first that of its
last one. -/
def followed (order : ScanOrder) (s t : State ρ) (c : ℤ) : List (EntryRecord ρ) :=
  match order with
  | .descending => s.transcript c
  | .ascending => t.transcript c

theorem next_of_page (hs : s.Forest) (hc : Assoc.get query.conversationId s.conversations = some r)
    {next : Cursor}
    (h : (if (remaining query order after (s.transcript query.conversationId)).length ≤ limit then
        none
      else ((remaining query order after (s.transcript query.conversationId)).take
        limit).getLast?.map fun e => (⟨e.id, some order⟩ : Cursor)) = some next) :
    ∃ last ∈ s.transcript query.conversationId, next = ⟨last.id, some order⟩ ∧
      ((remaining query order after (s.transcript query.conversationId)).take limit).getLast? =
        some last ∧ s.Sees query.conversationId last.id := by
  split_ifs at h
  obtain ⟨last, hlast, rfl⟩ := map_eq_some_iff.mp h
  have hmem := mem_of_mem_take (mem_of_getLast? hlast)
  have htranscript : last ∈ s.transcript query.conversationId := by
    cases order with
    | descending => exact (mem_filter.mp (mem_filter.mp hmem).1).1
    | ascending => exact (mem_filter.mp (mem_reverse.mp (mem_filter.mp hmem).1)).1
  refine ⟨last, htranscript, rfl, hlast, ?_⟩
  exact (((transcript_shows hs hc).2.mem last.id).mp (mem_map_of_mem htranscript)).1

/-- What remains in a later state after an entry seen before: nothing newer in a descending scan,
all that is newer in an ascending one. -/
theorem remaining_grown (hgrown : Grown s s') (hs : s.Forest) (hs' : s'.Forest)
    (hc : Assoc.get c s.conversations = some r) {last : EntryRecord ρ}
    (hlast : last ∈ s.transcript c) :
    remaining query .descending (some last.id) (s'.transcript c) =
        remaining query .descending (some last.id) (s.transcript c) ∧
      ∃ newer, s'.transcript c = newer ++ s.transcript c ∧
        ∀ e ∈ newer, ∀ e' ∈ s.transcript c, e'.id < e.id := by
  obtain ⟨newer, heq, habove⟩ := hgrown.transcript hs hs' hc
  refine ⟨?_, newer, heq, habove⟩
  rw [heq]
  exact remaining_append_descending fun e he => habove e he last hlast

theorem pages_eq {owned : ℕ → Bool} {all : List (EntryRecord ρ)} {t : State ρ}
    (h : Pages owned query order s cursor all t) (hs : s.Forest) (htyped : s.Typed)
    (hc : Assoc.get query.conversationId s.conversations = some r)
    (hcontinues : s.Continues query.conversationId order cursor) :
    t.Forest ∧ Grown s t ∧ all = remaining query order (cursor.map (·.after))
      (followed order s t query.conversationId) := by
  induction h generalizing r with
  | @last s cursor items limit requested hlimit hasks hpage =>
    rw [scan_eq hs hc hlimit hasks hcontinues] at hpage
    refine ⟨hs, Grown.refl s, ?_⟩
    have hfollowed : followed order s s query.conversationId =
        s.transcript query.conversationId := by cases order <;> rfl
    rw [hfollowed]
    injection hpage with hpage
    injection hpage with hitems hnext
    rw [← hitems, take_of_length_le]
    by_contra hlong
    rw [if_neg hlong, map_eq_none_iff, getLast?_eq_none_iff] at hnext
    have hlength := congrArg length hnext
    rw [length_take, length_nil] at hlength
    omega
  | @more s s' t cursor items rest next limit requested hlimit hasks hpage hsteps hrest ih =>
    rw [scan_eq hs hc hlimit hasks hcontinues] at hpage
    injection hpage with hpage
    injection hpage with hitems hnext
    obtain ⟨last, hmem, rfl, hlast, hsees⟩ := next_of_page hs hc hnext
    obtain ⟨hs', htyped', hgrown⟩ := steps_forest hsteps hs htyped
    have hc' := hgrown.conversations _ _ hc
    have hcontinues' : s'.Continues query.conversationId order (some ⟨last.id, some order⟩) := by
      rintro _ ⟨⟩
      exact ⟨rfl, hgrown.keeps _ _ hsees⟩
    obtain ⟨ht, hgrown', hall⟩ := ih hs' htyped' hc' hcontinues'
    have hgrownAll := hgrown.trans hgrown'
    refine ⟨ht, hgrownAll, ?_⟩
    have hafter := @remaining_after ρ query order (cursor.map (·.after)) _
      (transcript_shows hs hc).2.sorted limit last hlast
    rw [hall, map_some, ← hitems]
    cases order with
    | descending =>
      show _ ++ remaining query .descending (some last.id) (s'.transcript _) =
        remaining query .descending _ (s.transcript _)
      rw [(remaining_grown hgrown hs hs' hc hmem).1, hafter, take_append_drop]
    | ascending =>
      show _ ++ remaining query .ascending (some last.id) (t.transcript _) =
        remaining query .ascending _ (t.transcript _)
      obtain ⟨-, newer, heq, habove⟩ :=
        @remaining_grown ρ s t _ r query hgrownAll hs ht hc last hmem
      have hlater : ∀ e ∈ newer, (some last.id).all (· < e.id) = true :=
        fun e he => decide_eq_true (habove e he last hmem)
      rw [heq, remaining_append_ascending hlater, remaining_append_ascending, hafter,
        ← append_assoc, take_append_drop]
      intro e he
      cases cursor with
      | none => rfl
      | some next =>
        obtain ⟨-, hseen⟩ := hcontinues next rfl
        obtain ⟨e', he', hid⟩ := mem_map.mp
          (((transcript_shows hs hc).2.mem next.after).mpr ⟨hseen, rfl, rfl⟩)
        have hlt := habove e he e' he'
        rw [show e'.id = next.after from hid] at hlt
        exact decide_eq_true hlt

theorem pages_end (owned : ℕ → Bool) (hs : s.Forest)
    (hc : Assoc.get query.conversationId s.conversations = some r) (hlimit : 1 ≤ limit)
    (cursor : Option Cursor) (hcontinues : s.Continues query.conversationId order cursor) :
    ∃ all, Pages owned query order s cursor all s := by
  generalize hn : (remaining query order (cursor.map (·.after))
    (s.transcript query.conversationId)).length = n
  induction n using Nat.strong_induction_on generalizing cursor with
  | _ n ih =>
    have hpage := scan_eq hs hc hlimit (.inl rfl : Asks (some order) cursor order) hcontinues
    by_cases hle : n ≤ limit
    · rw [hn, if_pos hle] at hpage
      exact ⟨_, .last hlimit (.inl rfl) hpage⟩
    · rw [hn, if_neg hle] at hpage
      cases hnext : ((remaining query order (cursor.map (·.after))
          (s.transcript query.conversationId)).take limit).getLast? with
      | none =>
        have hlength := congrArg length (getLast?_eq_none_iff.mp hnext)
        rw [length_take, length_nil] at hlength
        omega
      | some last =>
        rw [hnext] at hpage
        obtain ⟨last', hmem, heq, hlast, hsees⟩ := next_of_page hs hc
          (show (if _ then none else _) = some (⟨last.id, some order⟩ : Cursor) by
            rw [hn, if_neg hle, hnext]
            rfl)
        have hafter := @remaining_after ρ query order (cursor.map (·.after)) _
          (transcript_shows hs hc).2.sorted limit last hnext
        obtain ⟨rest, hrest⟩ := ih (n - limit) (by omega) (some ⟨last.id, some order⟩)
          (by
            rw [hnext] at hlast
            cases hlast
            rintro _ ⟨⟩
            exact ⟨rfl, hsees⟩)
          (by rw [map_some, hafter, length_drop, hn])
        exact ⟨_, .more hlimit (.inl rfl) hpage (.refl s) hrest⟩

/-- What the pages of a whole scan give: newest first what its first page's state has between the
bounds, oldest first what its last page's has. -/
def scanned (query : EntryQuery) (order : ScanOrder) (s t : State ρ) : List (EntryRecord ρ) :=
  let part := bounded query.minEntryId query.maxEntryId (followed order s t query.conversationId)
  match order with
  | .descending => part
  | .ascending => part.reverse

/-- Every read of a conversation's entries is a part of one list. -/
structure ReadsAgree (owned : ℕ → Bool) (s : State ρ) (c : ℤ) : Prop where
  decreasing : ((s.transcript c).map (·.id)).Pairwise (· > ·)
  members : ∀ id, id ∈ (s.transcript c).map (·.id) ↔ s.Sees c id
  stored : ∀ e ∈ s.transcript c, Assoc.get e.id s.entries = some e
  descending : s.visibleEntries c none none = .ok (s.transcript c)
  ascending : s.visibleEntriesAscending c none none = .ok (s.transcript c).reverse
  entry : ∀ id, s.entry c id = .ok ((s.transcript c).find? fun e => e.id = id)
  head : ∀ cutoff, s.findLatestHeadMarker c cutoff =
    .ok ((bounded none cutoff (s.transcript c)).find? fun e => e.head.isSome)
  /-- Pages with any limits give the bounded list once, whatever is stored between them. -/
  pages : ∀ query order all t, query.conversationId = c → Pages owned query order s none all t →
    all = scanned query order s t
  ends : ∀ (query : EntryQuery) order limit, query.conversationId = c → 1 ≤ limit →
    ∃ all, Pages owned query order s none all s

end State

open State

/-- The reads of a conversation's entries agree in every state that orderly batches lead to. -/
theorem entry_reads_agree (owned : ℕ → Bool) {s : State ρ}
    (h : (memorySystem ρ owned).ReachableBy Orderly s) {c : ℤ} {r : ConversationRecord}
    (hc : Assoc.get c s.conversations = some r) : s.ReadsAgree owned c := by
  obtain ⟨hs, htyped⟩ := reachable_forest h
  obtain ⟨hread, hshows⟩ := transcript_shows hs hc
  have hcontinues : ∀ order, s.Continues c order none := fun _ _ hnext => by cases hnext
  have hall : bounded none none (s.transcript c) = s.transcript c :=
    filter_eq_self.mpr fun _ _ => rfl
  refine ⟨hshows.sorted, fun id => ?_, hshows.stored, hread, ?_, entry_eq hs hc, head_eq hs hc,
    fun query order all t hquery hpages => ?_, fun query order limit hquery hlimit => ?_⟩
  · rw [hshows.mem]
    exact and_iff_left ⟨rfl, rfl⟩
  · rw [(visible_eq hs hc none none).2, hall]
  · subst hquery
    obtain ⟨-, -, heq⟩ := pages_eq hpages hs htyped hc (hcontinues order)
    rw [heq]
    cases order with
    | descending | ascending => exact filter_eq_self.mpr fun _ _ => rfl
  · subst hquery
    exact pages_end owned hs hc hlimit none (hcontinues order)

/-- A conversation of two entries, forked at the first, and an entry of the fork. -/
def forked : List (StorageWrite Unit) :=
  [.conversation ⟨2, none, none⟩, .entry ⟨3, 2, none, ()⟩, .entry ⟨4, 2, some 4, ()⟩,
    .conversation ⟨5, some ⟨2, 3⟩, none⟩, .entry ⟨6, 5, none, ()⟩]

theorem sees_below {s : State Unit} {n c : ℤ} (h : ∀ entry ∈ s.entries, entry.1 < n) {id : ℤ}
    (hid : s.Sees c id) : id < n := by
  induction hid with
  | own hentry _ => exact h _ (Assoc.mem_of_get hentry)
  | inherited _ _ _ _ ih => exact ih

theorem forked_minted : (State.init : State Unit).MintedAll 1 forked := by
  refine ⟨fun _ h => (by cases h), ⟨rfl, by decide, by decide, fun id hid => ?_⟩,
    ⟨rfl, by decide, by decide, fun id hid => ?_⟩, ?_,
    ⟨rfl, by decide, by decide, fun id hid => ?_⟩, trivial⟩
  · exact sees_below (by decide) hid
  · exact sees_below (by decide) hid
  · rintro _ ⟨⟩
    exact ⟨rfl, @State.Sees.own Unit _ 2 3 ⟨3, 2, none, ()⟩ rfl rfl⟩
  · exact sees_below (by decide) hid

/-- The fork sees its own entry and the one it was forked at. -/
theorem entry_reads_agree_fork : ((State.init : State Unit).perform (fun _ => false)
    (.commit forked 1)).ReadsAgree (fun _ => false) 5 ∧
    (((State.init : State Unit).perform (fun _ => false) (.commit forked 1)).transcript 5).map
      (·.id) = [6, 3] := by
  have hrun : (memorySystem Unit fun _ => false).Along Orderly (State.perform fun _ => false)
      State.init [.commit forked 1] := ⟨rfl, forked_minted, trivial⟩
  exact ⟨entry_reads_agree (fun _ => false) ⟨_, rfl, hrun.steps⟩ rfl, by decide⟩

end KnightCode.Memory
