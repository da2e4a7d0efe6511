import KnightCode.Durable.ContextView

/-!
# Compaction of a conversation's context

A compaction selects an old part of the context, summarizes it, and places a summary entry whose
head is the first entry kept. `selectCut` walks back from the tail until enough tokens are kept
and cuts at an entry that no tool result crosses; the numbers it counts tokens with are any type
that has a sum and a comparison.
-/

namespace KnightCode.Context

open List Option

variable {ρ T : Type}

/-- The calls of the last assistant before an entry. -/
def callsBefore (contributions : List (List (Message ρ))) (index : ℕ) : List String :=
  match (contributions.take index).reverse.findSome? findLastAssistant with
  | some assistant => assistant.calls.map (·.id)
  | none => []

/-- Whether a result of one of the calls follows before the next assistant. The messages are those
from one entry on, with their positions. -/
def resultFollows (calls : List String) : List (Message ρ × ℕ) → Bool
  | [] => false
  | (message, position) :: rest =>
    if message.isAssistant && decide (0 < position) then false
    else if message.toolCallId.any (fun id => decide (id ∈ calls)) then true
    else resultFollows calls rest

def isCandidate (contributions : List (List (Message ρ))) (index : ℕ) : Bool :=
  match (contributions[index]?.getD []).head? with
  | some (.assistant _) => true
  | some (.user _) =>
    let calls := callsBefore contributions index
    if calls.isEmpty then true
    else !resultFollows calls (contributions.drop index).flatten.zipIdx
  | _ => false

section Selection

variable [Add T] [LT T] [DecidableLT T] (estimate : Message ρ → T)

def walkBack (contributions : List (List (Message ρ))) (keepRecentTokens : T) :
    List ℕ → T → Option ℕ
  | [], _ => none
  | index :: rest, kept =>
    let kept := (contributions[index]?.getD []).foldl (fun kept m => kept + estimate m) kept
    if kept < keepRecentTokens then walkBack contributions keepRecentTokens rest kept
    else some index

/-- Index in `view.entries` of the first entry a summary keeps, or `none` when there is nothing
to compact. -/
def selectCut [Zero T] (view : ContextView ρ) (keepRecentTokens : T) : Option ℕ :=
  let contributions := view.contributions
  let start := if view.head.isNone then 0 else 1
  let indexes := range' start (contributions.length - start)
  let candidates := indexes.filter (isCandidate contributions)
  match walkBack estimate contributions keepRecentTokens indexes.reverse 0 with
  | none => none
  | some index =>
    match (candidates.find? (fun candidate => decide (index ≤ candidate))).or
        candidates.getLast? with
    | none => none
    | some cut =>
      if ((contributions.take cut).drop start).any (!·.isEmpty) then some cut else none

def summarizedMessages (view : ContextView ρ) (cut : ℕ) : List (Message ρ) :=
  orderToolResults (view.contributions.take cut).flatten

/-- What a compaction selects: what it summarizes, and the request it checkpoints. -/
structure Selection (ρ : Type) where
  entries : List (EntryRecord ρ)
  messages : List (Message ρ)
  firstKept : ℤ
  tail : ℤ

def selectionAt (view : ContextView ρ) (cut : ℕ) (first : EntryRecord ρ) : Selection ρ where
  entries := view.entries.take cut
  messages := summarizedMessages view cut
  firstKept := first.id
  tail := view.entries.foldl (fun tail entry => if tail < entry.id then entry.id else tail) first.id

def select [Zero T] (view : ContextView ρ) (keepRecentTokens : T) : Option (Selection ρ) :=
  match selectCut estimate view keepRecentTokens with
  | none => none
  | some cut => view.entries[cut]?.map (selectionAt view cut)

/-- The messages the phase `summarize` reads again at the tail; `none` where the context cannot be
read or does not hold the first kept entry. -/
def summarySource (t : Visible ρ) (selection : Selection ρ) : Option (List (Message ρ)) :=
  match t.readContext (some selection.tail) with
  | .error _ => none
  | .ok view =>
    (view.entries.findIdx? (fun entry => decide (entry.id = selection.firstKept))).map
      (summarizedMessages view)

end Selection

def summaryEntry (id firstKept : ℤ) (text data : ρ) : EntryRecord ρ where
  id := id
  kind := "knightcode.compaction"
  model := some [.user text]
  head := some firstKept
  edits := none
  data := some data

/-! ### The cut -/

theorem findLastAssistant_flatten (contributions : List (List (Message ρ))) :
    findLastAssistant contributions.flatten =
      contributions.reverse.findSome? findLastAssistant := by
  induction contributions with
  | nil => rfl
  | cons first rest ih =>
    rw [flatten_cons, findLastAssistant_append, ih, reverse_cons, findSome?_append]
    simp

theorem firstResult_of_not_follows {calls : List String} {id : String} (hid : id ∈ calls)
    {messages : List (Message ρ)} {position : ℕ} (hposition : 0 < position)
    (h : resultFollows calls (messages.zipIdx position) = false) :
    firstResult id messages = none := by
  induction messages generalizing position with
  | nil => rfl
  | cons message rest ih =>
    rw [zipIdx_cons] at h
    cases message with
    | assistant message => rfl
    | toolResult message =>
      simp only [resultFollows, Message.isAssistant, Bool.false_and, Bool.false_eq_true, if_false,
        Message.toolCallId, any_some, decide_eq_true_eq] at h
      by_cases hin : message.toolCallId ∈ calls
      · rw [if_pos hin] at h
        cases h
      · rw [if_neg hin] at h
        have hne : message.toolCallId ≠ id := fun heq => hin (heq ▸ hid)
        rw [firstResult, if_neg hne]
        exact ih (Nat.succ_pos _) h
    | system ref body | user body => exact ih (Nat.succ_pos _) h

variable {index : ℕ}

theorem parts_of_isCandidate {contributions : List (List (Message ρ))}
    (h : isCandidate contributions index = true) :
    Parts (contributions.take index).flatten (contributions.drop index).flatten := by
  have hhead : ∀ message, (contributions[index]?.getD []).head? = some message →
      ∃ rest, (contributions.drop index).flatten = message :: rest := by
    intro message hfirst
    cases hat : contributions[index]? with
    | none => simp [hat] at hfirst
    | some contribution =>
      obtain ⟨hlt, hget⟩ := List.getElem?_eq_some_iff.mp hat
      rw [hat, getD_some] at hfirst
      obtain ⟨rest, hrest⟩ := head?_eq_some_iff.mp hfirst
      rw [drop_eq_getElem_cons hlt, hget, hrest]
      exact ⟨_, rfl⟩
  unfold isCandidate at h
  split at h
  · rename_i assistant hfirst
    obtain ⟨rest, hrest⟩ := hhead _ hfirst
    rw [hrest]
    exact .of_assistant _ _ _
  · rename_i body hfirst
    obtain ⟨rest, hrest⟩ := hhead _ hfirst
    intro assistant hlast call hcall
    have hcalls : call.id ∈ callsBefore contributions index := by
      rw [findLastAssistant_flatten] at hlast
      rw [callsBefore, hlast]
      exact mem_map_of_mem hcall
    have hsome : (callsBefore contributions index).isEmpty = false :=
      isEmpty_eq_false_iff_exists_mem.mpr ⟨_, hcalls⟩
    simp only [hsome, Bool.false_eq_true, if_false, Bool.not_eq_true', hrest] at h
    have hfollows : resultFollows (callsBefore contributions index) (rest.zipIdx 1) = false := h
    rw [hrest]
    have hnone : firstResult call.id rest = none :=
      firstResult_of_not_follows hcalls Nat.zero_lt_one hfollows
    exact hnone
  · cases h

variable [Add T] [LT T] [DecidableLT T] [Zero T] {estimate : Message ρ → T}
  {view : ContextView ρ} {keepRecentTokens : T} {cut : ℕ}

theorem selectCut_spec (h : selectCut estimate view keepRecentTokens = some cut) :
    (if view.head.isNone then 0 else 1) ≤ cut ∧ cut < view.contributions.length ∧
      isCandidate view.contributions cut = true := by
  unfold selectCut at h
  dsimp only at h
  split at h
  · cases h
  · split at h
    · cases h
    · rename_i found hfound
      have heq : found = cut := Option.some.inj (ite_none_right_eq_some.mp h).2
      subst heq
      have hmem : found ∈ (range' (if view.head.isNone then 0 else 1)
          (view.contributions.length - if view.head.isNone then 0 else 1)).filter
            (isCandidate view.contributions) := by
        obtain hfind | ⟨-, hlast⟩ := or_eq_some_iff.mp hfound
        · exact mem_of_find?_eq_some hfind
        · exact mem_of_mem_getLast? hlast
      obtain ⟨hrange, hcandidate⟩ := mem_filter.mp hmem
      obtain ⟨hge, hlt⟩ := mem_range'_1.mp hrange
      exact ⟨hge, by omega, hcandidate⟩

/-! ### Reading the selected range again -/

theorem foldl_tail {entries : List (EntryRecord ρ)} {first tail : ℤ}
    (hle : ∀ entry ∈ entries, entry.id ≤ tail) (hfirst : first ≤ tail)
    (htail : first = tail ∨ ∃ entry ∈ entries, entry.id = tail) :
    entries.foldl (fun tail entry => if tail < entry.id then entry.id else tail) first = tail := by
  induction entries generalizing first with
  | nil =>
    obtain rfl | ⟨entry, hentry, -⟩ := htail
    · rfl
    · cases hentry
  | cons entry entries ih =>
    have hentry : entry.id ≤ tail := hle entry mem_cons_self
    rw [foldl_cons]
    refine ih (fun other hother => hle other (mem_cons_of_mem _ hother)) ?_ ?_
    · split_ifs
      · exact hentry
      · exact hfirst
    · obtain rfl | ⟨other, hother, hid⟩ := htail
      · exact .inl (if_neg (not_lt.mpr hentry))
      · obtain rfl | hother := mem_cons.mp hother
        · refine .inl ?_
          split_ifs with hlt
          · exact hid
          · exact le_antisymm hfirst (hid ▸ not_lt.mp hlt)
        · exact .inr ⟨other, hother, hid⟩

namespace Visible

variable {t t' : Visible ρ}

theorem Shows.mem (h : t.Shows view) {entry : EntryRecord ρ} (hentry : entry ∈ view.entries) :
    entry ∈ t.entries := by
  rw [h.entries, mem_append] at hentry
  obtain hentry | hentry := hentry
  · obtain ⟨head, hmarker, rfl⟩ := map_eq_some_iff.mp (mem_toList.mp hentry)
    exact marker_mem hmarker
  · exact (mem_filter.mp hentry).1

theorem Shows.nodup (h : t.Shows view) : (view.entries.map (·.id)).Nodup := by
  have hkept : ((t.kept t.marker).map (·.id)).Nodup := by
    refine List.Pairwise.map _ (fun a b hlt => ?_) (t.increasing.filter _)
    exact ne_of_lt hlt
  rw [h.entries, map_append]
  cases hmarker : t.marker with
  | none => simpa [hmarker] using hkept
  | some head =>
    rw [hmarker] at hkept
    simp only [map_some, toList_some, map_cons, map_nil, singleton_append, nodup_cons]
    refine ⟨fun hmem => ?_, hkept⟩
    obtain ⟨entry, hentry, hid⟩ := mem_map.mp hmem
    obtain ⟨hvisible, hplain⟩ := mem_filter.mp hentry
    rw [Bool.and_eq_true, isNone_iff_eq_none] at hplain
    have hinj := inj_on_of_nodup_map
      (List.Pairwise.map (fun entry : EntryRecord ρ => entry.id)
        (fun a b (hlt : a.id < b.id) => ne_of_lt hlt) t.increasing)
    have heq : entry = head.entry := hinj hvisible (marker_mem hmarker) hid
    have hmarks := head.marks
    rw [← heq, hplain.2] at hmarks
    cases hmarks

theorem Shows.newest_mem (h : t.Shows view) {entry last : EntryRecord ρ}
    (hentry : entry ∈ t.kept t.marker) (hlast : t.entries.getLast? = some last) :
    last ∈ view.entries := by
  have hmem : last ∈ t.entries := mem_of_mem_getLast? hlast
  rw [h.entries, mem_append]
  cases hhead : last.head with
  | none =>
    refine .inr (mem_filter.mpr ⟨hmem, ?_⟩)
    rw [hhead, isNone_none, Bool.and_true]
    cases hmarker : t.marker with
    | none => rfl
    | some head =>
      have hle : entry.id ≤ last.id :=
        le_latest (by rw [latestEntryId, hlast, map_some]) entry
          (mem_filter.mp hentry).1
      exact decide_eq_true (le_trans (le_of_kept hmarker hentry) hle)
  | some head =>
    obtain ⟨front, hfront⟩ := getLast?_eq_some_iff.mp hlast
    have hmarker : t.marker = some ⟨last, head, hhead⟩ := by
      rw [marker, hfront, reverse_append, findSome?_append]
      simp [EntryRecord.marker_of_head hhead]
    exact .inl (by simp [hmarker])

theorem Shows.cut_kept (h : t.Shows view)
    (hcut : selectCut estimate view keepRecentTokens = some cut) :
    (t.marker.map (·.entry)).toList.length ≤ cut ∧ ∃ first, view.entries[cut]? = some first ∧
      (t.kept t.marker)[cut - (t.marker.map (·.entry)).toList.length]? = some first := by
  obtain ⟨hstart, hlt, -⟩ := selectCut_spec hcut
  obtain ⟨first, hlength, -, hcontributions⟩ := h.contributions
  have hstart : (t.marker.map (·.entry)).toList.length ≤ cut := by
    rw [h.head] at hstart
    cases hmarker : t.marker with
    | none => exact Nat.zero_le cut
    | some head => simpa [hmarker] using hstart
  have hlt : cut < view.entries.length := by
    rw [hcontributions, length_append, length_map, hlength] at hlt
    rwa [h.entries, length_append]
  refine ⟨hstart, view.entries[cut], getElem?_eq_getElem hlt, ?_⟩
  rw [← getElem?_append_right hstart, ← h.entries]
  exact getElem?_eq_getElem hlt

end Visible

/-- What placing a summary makes of the context that entries were appended to meanwhile. -/
structure Replaces (t' : Visible ρ) (view view' view'' : ContextView ρ) (cut : ℕ)
    (appended : List (EntryRecord ρ)) (summary : EntryRecord ρ) (text : ρ) : Prop where
  before : view'.entries = view.entries ++ appended
  entries : view''.entries = summary :: (view.entries.drop cut ++ appended)
  contributions : view''.contributions = [.user text] :: view'.contributions.drop cut
  edited : view''.contributions = [.user text] :: (view.entries.drop cut ++ appended).map
    fun entry => contribute entry (t'.newestEdit entry.id)
  unedited : ∀ index entry, cut ≤ index → view.entries[index]? = some entry →
    (∀ later ∈ appended, ∀ edit ∈ later.edits.getD [], edit.target ≠ entry.id) →
    view'.contributions[index]? = view.contributions[index]?

/-- A compaction summarizes the part before the cut, no tool result crosses the cut, and once the
summary is placed the rest of the context is as it was. -/
structure KeepsRest (t : Visible ρ) (view : ContextView ρ) (cut : ℕ)
    (selection : Selection ρ) : Prop where
  first : view.entries[cut]?.map (·.id) = some selection.firstKept
  entries : selection.entries = view.entries.take cut
  messages : selection.messages = orderToolResults (view.contributions.take cut).flatten
  reread : ∀ (t' : Visible ρ) (appended : List (EntryRecord ρ)),
    t'.entries = t.entries ++ appended → summarySource t' selection = some selection.messages
  ordered : orderToolResults view.contributions.flatten =
    orderToolResults (view.contributions.take cut).flatten ++
      orderToolResults (view.contributions.drop cut).flatten
  answered : ∀ before message rest,
    (view.contributions.take cut).flatten = before ++ .assistant message :: rest →
    resultsAfter message (rest ++ (view.contributions.drop cut).flatten) =
      resultsAfter message rest
  placed : ∀ (t' t'' : Visible ρ) (appended : List (EntryRecord ρ)) (view' view'' : ContextView ρ)
    (id : ℤ) (text data : ρ), t'.entries = t.entries ++ appended →
    (∀ entry ∈ appended, entry.head = none) →
    t''.entries = t'.entries ++ [summaryEntry id selection.firstKept text data] →
    t'.readContext none = .ok view' → t''.readContext none = .ok view'' →
    Replaces t' view view' view'' cut appended
      (summaryEntry id selection.firstKept text data) text

section Proof

variable {t t' t'' : Visible ρ} {view' view'' : ContextView ρ}
  {appended : List (EntryRecord ρ)}
variable {first : EntryRecord ρ}

theorem summarySource_eq (hview : t.readContext none = .ok view)
    (hfirst : view.entries[cut]? = some first) (hkept : first ∈ t.kept t.marker)
    (happended : t'.entries = t.entries ++ appended) :
    summarySource t' (selectionAt view cut first) = some (summarizedMessages view cut) := by
  have hshows := Visible.shows_readContext hview
  have hvisible : first ∈ t.entries := (mem_filter.mp hkept).1
  cases hlast : t.entries.getLast? with
  | none => rw [getLast?_eq_none_iff.mp hlast] at hvisible; cases hvisible
  | some last =>
    have hlatest : t.latestEntryId = some last.id := by
      rw [Visible.latestEntryId, hlast, map_some]
    have hle := Visible.le_latest hlatest
    have htail : (selectionAt view cut first).tail = last.id :=
      foldl_tail (fun entry hentry => hle entry (hshows.mem hentry)) (hle first hvisible)
        (.inr ⟨last, hshows.newest_mem hkept hlast, rfl⟩)
    have hindex : view.entries.findIdx? (fun entry => decide (entry.id = first.id)) =
        some cut := by
      obtain ⟨hlt, hget⟩ := List.getElem?_eq_some_iff.mp hfirst
      refine findIdx?_eq_some_iff_getElem.mpr
        ⟨hlt, decide_eq_true (by rw [hget]), fun other hother heq => ?_⟩
      have hlt' : other < view.entries.length := Nat.lt_trans hother hlt
      have hids : (view.entries.map (·.id))[other]? = (view.entries.map (·.id))[cut]? := by
        rw [getElem?_map, getElem?_map, getElem?_eq_getElem hlt', hfirst,
          map_some, map_some, of_decide_eq_true heq]
      have hlength : other < (view.entries.map (·.id)).length := by
        rw [length_map]
        exact hlt'
      exact absurd ((getElem?_inj hlength hshows.nodup).mp hids) (Nat.ne_of_lt hother)
    rw [summarySource, htail, Visible.readContext_appended hlatest happended, hview]
    exact congrArg (Option.map (summarizedMessages view)) hindex

theorem Visible.kept_placed {summary : EntryRecord ρ} (hhead : summary.head = some first.id)
    (hfirst : (t'.kept t'.marker)[index]? = some first)
    (hplaced : t''.entries = t'.entries ++ [summary]) :
    t''.kept t''.marker = (t'.kept t'.marker).drop index := by
  have hincreasing : (t'.kept t'.marker).Pairwise (·.id < ·.id) := t'.increasing.filter _
  have hsummary : [summary].filter (fun entry =>
      (some (⟨summary, first.id, hhead⟩ : HeadMarker ρ)).all
        (fun head => decide (head.head ≤ entry.id)) && entry.head.isNone) = [] := by
    simp [hhead]
  rw [drop_eq_filter hincreasing hfirst, marker_placed hhead hplaced, kept, kept,
    List.filter_filter, hplaced, filter_append, hsummary, append_nil]
  refine filter_congr fun entry _ => ?_
  cases hmarker : t'.marker with
  | none => simp
  | some head =>
    have hle : head.head ≤ first.id := le_of_kept hmarker (mem_of_getElem? hfirst)
    have himp : first.id ≤ entry.id → head.head ≤ entry.id := le_trans hle
    by_cases hin : first.id ≤ entry.id
    · simp [hin, himp hin]
    · simp [hin]

theorem Visible.Shows.drop_contributions (h : t.Shows view)
    (hstart : (t.marker.map (·.entry)).toList.length ≤ cut) :
    view.contributions.drop cut =
      ((t.kept t.marker).drop (cut - (t.marker.map (·.entry)).toList.length)).map
        fun entry => contribute entry (t.newestEdit entry.id) := by
  obtain ⟨shown, hlength, -, hcontributions⟩ := h.contributions
  rw [hcontributions, drop_append, drop_eq_nil_of_le (hlength ▸ hstart), hlength,
    nil_append, map_drop]

theorem Visible.Shows.drop_entries (h : t.Shows view)
    (hstart : (t.marker.map (·.entry)).toList.length ≤ cut) :
    view.entries.drop cut =
      (t.kept t.marker).drop (cut - (t.marker.map (·.entry)).toList.length) := by
  rw [h.entries, drop_append, drop_eq_nil_of_le hstart, nil_append]

theorem Visible.Shows.placed {id : ℤ} {text data : ρ} (h : t''.Shows view'')
    (hfirst : (t'.kept t'.marker)[index]? = some first)
    (hplaced : t''.entries = t'.entries ++ [summaryEntry id first.id text data]) :
    view''.entries = summaryEntry id first.id text data :: (t'.kept t'.marker).drop index ∧
      view''.contributions = [.user text] :: ((t'.kept t'.marker).drop index).map
        fun entry => contribute entry (t'.newestEdit entry.id) := by
  have hmarker : t''.marker = some ⟨summaryEntry id first.id text data, first.id, rfl⟩ :=
    marker_placed rfl hplaced
  have hkept := kept_placed rfl hfirst hplaced
  refine ⟨by rw [h.entries, hkept, hmarker]; rfl, ?_⟩
  obtain ⟨shown, -, hshown, hcontributions⟩ := h.contributions
  have hself : first.id ≤ (summaryEntry id first.id text data).id :=
    le_of_lt (lt_of_appended hplaced (mem_filter.mp (mem_of_getElem? hfirst)).1
      (mem_singleton_self _))
  have hnewest : t''.newestEdit (summaryEntry id first.id text data).id = none :=
    newestEdit_newest (by rw [hplaced, getLast?_concat])
  have hedit : ∀ target, t''.newestEdit target = t'.newestEdit target := fun target =>
    newestEdit_appended hplaced fun entry hentry edit hedit => by
      rw [mem_singleton.mp hentry] at hedit
      cases hedit
  rw [hcontributions, hshown _ hmarker hself, hkept, hnewest]
  simp only [hedit]
  rfl

theorem replaces_of_placed {id : ℤ} {text data : ρ} (hview : t.readContext none = .ok view)
    (hview' : t'.readContext none = .ok view') (hview'' : t''.readContext none = .ok view'')
    (hstart : (t.marker.map (·.entry)).toList.length ≤ cut)
    (hfirst : (t.kept t.marker)[cut - (t.marker.map (·.entry)).toList.length]? = some first)
    (happended : t'.entries = t.entries ++ appended)
    (hheads : ∀ entry ∈ appended, entry.head = none)
    (hplaced : t''.entries = t'.entries ++ [summaryEntry id first.id text data]) :
    Replaces t' view view' view'' cut appended (summaryEntry id first.id text data) text := by
  have hshows := Visible.shows_readContext hview
  have hshows' := Visible.shows_readContext hview'
  have hkept : first ∈ t.kept t.marker := mem_of_getElem? hfirst
  obtain ⟨hlt, -⟩ := List.getElem?_eq_some_iff.mp hfirst
  have hmarker' : t'.marker = t.marker := Visible.marker_appended happended hheads
  have hkept' : t'.kept t.marker = t.kept t.marker ++ appended :=
    Visible.kept_appended happended hheads fun marker hmarker =>
      ⟨first, (mem_filter.mp hkept).1, Visible.le_of_kept hmarker hkept⟩
  have hget' : ∀ {index : ℕ} {entry : EntryRecord ρ}, (t.kept t.marker)[index]? = some entry →
      (t'.kept t'.marker)[index]? = some entry := by
    intro index entry hget
    rw [hmarker', hkept', getElem?_append_left (List.getElem?_eq_some_iff.mp hget).1, hget]
  have hdrop : (t'.kept t.marker).drop (cut - (t.marker.map (·.entry)).toList.length) =
      view.entries.drop cut ++ appended := by
    rw [hshows.drop_entries hstart, hkept', drop_append_of_le_length (Nat.le_of_lt hlt)]
  have hcontributions := hshows'.drop_contributions (hmarker' ▸ hstart)
  rw [hmarker', hdrop] at hcontributions
  obtain ⟨hentries'', hcontributions''⟩ :=
    (Visible.shows_readContext hview'').placed (hget' hfirst) hplaced
  rw [hmarker', hdrop] at hentries'' hcontributions''
  refine ⟨?_, hentries'', ?_, hcontributions'', ?_⟩
  · rw [hshows'.entries, hmarker', hkept', hshows.entries, append_assoc]
  · rw [hcontributions'', hcontributions]
  · intro index entry hle hentry hunedited
    have hstart : (t.marker.map (·.entry)).toList.length ≤ index := Nat.le_trans hstart hle
    have hstart' : (t'.marker.map (·.entry)).toList.length ≤ index := hmarker' ▸ hstart
    rw [hshows.entries, getElem?_append_right hstart] at hentry
    have hfrom := congrArg head? (hshows.drop_contributions hstart)
    have hfrom' := congrArg head? (hshows'.drop_contributions hstart')
    rw [hmarker', head?_drop, head?_map, head?_drop] at hfrom'
    rw [head?_drop, head?_map, head?_drop, hentry] at hfrom
    have hentry' := hget' hentry
    rw [hmarker'] at hentry'
    rw [hfrom, hfrom', hentry', map_some, map_some, Visible.newestEdit_appended happended hunedited]

/-- Compaction keeps the rest of the context. -/
theorem compaction_keeps_rest (hview : t.readContext none = .ok view)
    (hcut : selectCut estimate view keepRecentTokens = some cut) :
    ∃ selection, select estimate view keepRecentTokens = some selection ∧
      KeepsRest t view cut selection := by
  obtain ⟨hstart, first, hfirst, hkept⟩ := (Visible.shows_readContext hview).cut_kept hcut
  obtain ⟨-, -, hcandidate⟩ := selectCut_spec hcut
  have hparts := parts_of_isCandidate hcandidate
  refine ⟨selectionAt view cut first, ?_, ?_⟩
  · rw [select, hcut]
    dsimp only
    rw [hfirst, map_some]
  · constructor
    · rw [hfirst, map_some]
      rfl
    · rfl
    · rfl
    · intro t' appended happended
      exact summarySource_eq hview hfirst (mem_of_getElem? hkept) happended
    · rw [← orderToolResults_append hparts, ← flatten_append, take_append_drop]
    · intro before message rest hbefore
      rw [hbefore] at hparts
      exact hparts.resultsAfter
    · intro t' t'' appended view' view'' id text data happended hheads hplaced hview' hview''
      exact replaces_of_placed hview hview' hview'' hstart hkept happended hheads hplaced

end Proof

/-! ### A second compaction -/

def plain (id : ℤ) (messages : List (Message ℕ)) : EntryRecord ℕ :=
  ⟨id, "knightcode.user", some messages, none, none, none⟩

def calling (id : ℤ) : EntryRecord ℕ :=
  plain id [.assistant ⟨[.toolCall ⟨"call", "read", 0⟩], .toolUse, id, 0⟩]

def answering (id : ℤ) : EntryRecord ℕ :=
  plain id [.toolResult ⟨"call", "read", [], false, none, id⟩]

/-- A transcript compacted once, its marker later than the entries it keeps. -/
def compactedOnce : Visible ℕ where
  conversationId := 1
  entries := [plain 2 [.user 2], plain 3 [.user 3], calling 4, summaryEntry 5 3 50 0,
    { plain 6 [.user 6] with edits := some [⟨3, .omit⟩] }, answering 7, plain 8 [.user 8]]
  increasing := by simp [plain, calling, answering, summaryEntry]
  earlier := by simp [plain, calling, answering, summaryEntry]

def appendedOnce : Visible ℕ where
  conversationId := 1
  entries := compactedOnce.entries ++ [{ plain 9 [.user 9] with edits := some [⟨8, .omit⟩] }]
  increasing := by simp [compactedOnce, plain, calling, answering, summaryEntry]
  earlier := by simp [compactedOnce, plain, calling, answering, summaryEntry]

def compactedTwice : Visible ℕ where
  conversationId := 1
  entries := appendedOnce.entries ++ [summaryEntry 10 8 100 0]
  increasing := by simp [appendedOnce, compactedOnce, plain, calling, answering, summaryEntry]
  earlier := by simp [appendedOnce, compactedOnce, plain, calling, answering, summaryEntry]

/-- The view of the whole conversation. -/
def Visible.current (t : Visible ρ) : ContextView ρ :=
  t.deriveContext (t.latestEntryId.map fun tail => ⟨t.latestHeadMarker tail, tail⟩)

/-- The cut walks past the user entry that a result still follows. -/
theorem compaction_keeps_rest_twice :
    Replaces appendedOnce compactedOnce.current appendedOnce.current compactedTwice.current 5
      [{ plain 9 [.user 9] with edits := some [⟨8, .omit⟩] }] (summaryEntry 10 8 100 0) 100 := by
  have hcut : selectCut (fun _ => 1) compactedOnce.current 3 = some 5 := by decide +kernel
  obtain ⟨selection, hselect, hkeeps⟩ := compaction_keeps_rest (t := compactedOnce) rfl hcut
  have hfirst : (8 : ℤ) = selection.firstKept := Option.some.inj hkeeps.first
  have hplaced := hkeeps.placed appendedOnce compactedTwice
    [{ plain 9 [.user 9] with edits := some [⟨8, .omit⟩] }] appendedOnce.current
    compactedTwice.current 10 100 0 rfl (by simp [plain]) (hfirst ▸ rfl) rfl rfl
  rwa [← hfirst] at hplaced

end KnightCode.Context
