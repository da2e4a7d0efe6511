import KnightCode.Session.Compacted

/-!
# Results cut off from their calls

Every user-like entry is a candidate for the cut, also one that stands between an assistant message
and a result of its calls. Which candidate is selected depends on the tokens behind it and behind the
candidates before it. A result is cut off from its call exactly when the selected candidate stands
between them.
-/

namespace KnightCode.Session

open List Option

variable {ρ : Type}

/-! ### The cut point that the tokens select -/

section

variable (estimateTokens : AgentMessage ρ → ℕ) (entries : Projected ρ)

def tokensFrom (index : ℕ) : ℕ :=
  ((entries.drop index).map (messageTokens estimateTokens)).sum

def Reaches (keepRecentTokens : ℤ) (index : ℕ) : Prop :=
  0 < tokensFrom estimateTokens entries index ∧
    keepRecentTokens ≤ tokensFrom estimateTokens entries index

def isCutPointAt (index : ℕ) : Bool :=
  entries[index]?.any ProjectedSessionEntry.isCutPoint

/-- A candidate such that the tokens behind every earlier candidate reach the budget, and those
behind it do not, unless it is the last one. -/
structure Selected (startIndex : ℕ) (keepRecentTokens : ℤ) (candidate : ℕ) : Prop where
  start : startIndex ≤ candidate
  cutPoint : isCutPointAt entries candidate = true
  before : ∀ index, startIndex ≤ index → index < candidate → isCutPointAt entries index = true →
    Reaches estimateTokens entries keepRecentTokens (index + 1)
  behind : ∀ index, candidate < index → isCutPointAt entries index = true →
    ¬ Reaches estimateTokens entries keepRecentTokens (candidate + 1)

instance (keepRecentTokens : ℤ) (index : ℕ) :
    Decidable (Reaches estimateTokens entries keepRecentTokens index) :=
  inferInstanceAs (Decidable (_ ∧ _))

/-- Behind a candidate, if the budget is reached and only omitted attempts follow. -/
def pushed (getTime : Text → Option ℤ) (startIndex : ℕ) (keepRecentTokens : ℤ) (candidate : ℕ) : ℕ :=
  if Reaches estimateTokens entries keepRecentTokens startIndex ∧
      isRecoveryOmissionSuffix getTime (entries.drop (candidate + 1)) = true then candidate + 1
    else candidate

/-- The first place, from the start on, behind which only entries that contribute nothing stand
before `cut`. -/
structure Settles (startIndex cut index : ℕ) : Prop where
  start : startIndex ≤ index
  le : index ≤ cut
  silent : ∀ i, index ≤ i → i < cut → entries[i]?.any ProjectedSessionEntry.isSilent = true
  stops : ∀ i, startIndex ≤ i → index = i + 1 →
    entries[i]?.any ProjectedSessionEntry.isSilent = false

end

section

variable {estimateTokens : AgentMessage ρ → ℕ} {entries : Projected ρ}
  {startIndex candidate : ℕ} {keepRecentTokens : ℤ}

theorem Selected.unique {candidate' : ℕ}
    (h : Selected estimateTokens entries startIndex keepRecentTokens candidate)
    (h' : Selected estimateTokens entries startIndex keepRecentTokens candidate') :
    candidate = candidate' := by
  rcases lt_trichotomy candidate candidate' with hlt | heq | hlt
  · exact absurd (h'.before candidate h.start hlt h.cutPoint) (h.behind candidate' hlt h'.cutPoint)
  · exact heq
  · exact absurd (h.before candidate' h'.start hlt h'.cutPoint) (h'.behind candidate hlt h.cutPoint)

theorem settles_iff {cut index : ℕ} (h : startIndex ≤ cut) :
    Settles entries startIndex cut index ↔ index = moveBack entries startIndex cut := by
  induction cut with
  | zero =>
    refine ⟨fun hs => Nat.le_zero.mp hs.le, ?_⟩
    rintro rfl
    exact ⟨h, le_rfl, fun i _ hlt => absurd hlt (Nat.not_lt_zero i), fun _ _ => nofun⟩
  | succ cut ih =>
    rw [moveBack]
    split_ifs with hback
    · obtain ⟨hlt, hsilent⟩ := hback
      rw [← ih (Nat.le_of_lt_succ hlt)]
      constructor
      · intro hs
        refine ⟨hs.start, Nat.le_of_lt_succ (lt_of_le_of_ne hs.le ?_), fun i hi hlt' =>
          hs.silent i hi (Nat.lt_succ_of_lt hlt'), hs.stops⟩
        rintro rfl
        rw [hs.stops cut (Nat.le_of_lt_succ hlt) rfl] at hsilent
        cases hsilent
      · refine fun hs => ⟨hs.start, Nat.le_succ_of_le hs.le, fun i hi hlt' => ?_, hs.stops⟩
        rcases Nat.lt_succ_iff_lt_or_eq.mp hlt' with hlt' | rfl
        · exact hs.silent i hi hlt'
        · exact hsilent
    · constructor
      · intro hs
        rcases Nat.lt_or_eq_of_le hs.le with hlt | heq
        · have hle := Nat.le_of_lt_succ hlt
          exact absurd ⟨Nat.lt_succ_of_le (hs.start.trans hle), hs.silent cut hle cut.lt_succ_self⟩
            hback
        · exact heq
      · rintro rfl
        refine ⟨h, le_rfl, fun i hi hlt => absurd hlt (Nat.not_lt_of_le hi), fun i hi heq => ?_⟩
        cases heq
        exact Bool.eq_false_iff.mpr fun hsilent => hback ⟨Nat.lt_succ_of_le hi, hsilent⟩

variable {getTime : Text → Option ℤ}

theorem le_pushed (h : startIndex ≤ candidate) :
    startIndex ≤ pushed estimateTokens entries getTime startIndex keepRecentTokens candidate := by
  rw [pushed]
  split_ifs
  · exact Nat.le_succ_of_le h
  · exact h

theorem tokensFrom_eq (index : ℕ) :
    tokensFrom estimateTokens entries index =
      ((entries[index]?).map (messageTokens estimateTokens)).getD 0 +
        tokensFrom estimateTokens entries (index + 1) := by
  rw [tokensFrom, tokensFrom]
  by_cases hlt : index < entries.length
  · rw [drop_eq_getElem_cons hlt, map_cons, sum_cons, getElem?_eq_getElem hlt]
    rfl
  · have hle := not_lt.mp hlt
    rw [drop_eq_nil_of_le hle, drop_eq_nil_of_le (hle.trans (Nat.le_succ _)), getElem?_eq_none hle]
    rfl

theorem tokensFrom_antitone {index index' : ℕ} (h : index ≤ index') :
    tokensFrom estimateTokens entries index' ≤ tokensFrom estimateTokens entries index := by
  induction h with
  | refl => exact le_rfl
  | @step index' _ ih =>
    have hindex := @tokensFrom_eq _ estimateTokens entries index'
    exact le_trans (hindex ▸ Nat.le_add_left _ _) ih

theorem Reaches.mono {index index' : ℕ} (h : Reaches estimateTokens entries keepRecentTokens index')
    (hle : index ≤ index') : Reaches estimateTokens entries keepRecentTokens index := by
  have htokens := @tokensFrom_antitone _ estimateTokens entries _ _ hle
  exact ⟨h.1.trans_le htokens, h.2.trans (by exact_mod_cast htokens)⟩

theorem budgetIndex_spec {end' : ℕ} (hstart : startIndex ≤ end')
    (hnot : ¬ Reaches estimateTokens entries keepRecentTokens end') :
    (∀ index, budgetIndex estimateTokens entries startIndex keepRecentTokens
        (tokensFrom estimateTokens entries end') end' = some index →
      startIndex ≤ index ∧ Reaches estimateTokens entries keepRecentTokens index ∧
        ¬ Reaches estimateTokens entries keepRecentTokens (index + 1)) ∧
    (budgetIndex estimateTokens entries startIndex keepRecentTokens
        (tokensFrom estimateTokens entries end') end' = none →
      ¬ Reaches estimateTokens entries keepRecentTokens startIndex) := by
  induction end' with
  | zero =>
    obtain rfl : startIndex = 0 := Nat.le_zero.mp hstart
    exact ⟨fun index h => (by cases h), fun _ => hnot⟩
  | succ end' ih =>
    have htokens := @tokensFrom_eq _ estimateTokens entries end'
    rw [budgetIndex]
    by_cases hbefore : end' < startIndex
    · rw [if_pos hbefore]
      obtain rfl : startIndex = end' + 1 := by omega
      exact ⟨fun index h => (by cases h), fun _ => hnot⟩
    · rw [if_neg hbefore]
      dsimp only
      generalize ((entries[end']?).map (messageTokens estimateTokens)).getD 0 = tokens at *
      by_cases hreached : tokens ≠ 0 ∧ keepRecentTokens ≤
          (tokensFrom estimateTokens entries (end' + 1) : ℤ) + tokens
      · rw [if_pos hreached]
        refine ⟨fun index h => ?_, fun h => (by cases h)⟩
        cases h
        refine ⟨not_lt.mp hbefore, ⟨?_, ?_⟩, hnot⟩
        · rw [htokens]
          omega
        · rw [htokens]
          push_cast
          omega
      · rw [if_neg hreached]
        have hnot' : ¬ Reaches estimateTokens entries keepRecentTokens end' := by
          rintro ⟨hpos, hle⟩
          rw [htokens] at hpos hle
          refine hreached ⟨fun hzero => hnot ?_, ?_⟩
          · subst hzero
            rw [zero_add] at hpos hle
            exact ⟨hpos, hle⟩
          · push_cast at hle
            omega
        have hnext := ih (not_lt.mp hbefore) hnot'
        rw [htokens, add_comm] at hnext
        exact hnext

theorem mem_cutPointsFrom_iff {index : ℕ} :
    index ∈ cutPointsFrom entries startIndex entries.length ↔
      startIndex ≤ index ∧ isCutPointAt entries index = true := by
  rw [cutPointsFrom, mem_filter, mem_range'_1]
  refine ⟨fun h => ⟨h.1.1, h.2⟩, fun h => ⟨⟨h.1, ?_⟩, h.2⟩⟩
  have hlt : index < entries.length := by
    by_contra hle
    have hcut := h.2
    rw [isCutPointAt, getElem?_eq_none (not_lt.mp hle)] at hcut
    cases hcut
  omega

theorem cutPointsFrom_sorted (endIndex : ℕ) :
    (cutPointsFrom entries startIndex endIndex).Pairwise (· < ·) :=
  List.Pairwise.filter _ (pairwise_lt_range' 1 one_pos)

theorem not_reaches_length : ¬ Reaches estimateTokens entries keepRecentTokens entries.length := by
  rintro ⟨hpos, -⟩
  rw [tokensFrom, drop_length] at hpos
  exact lt_irrefl 0 hpos

theorem cutAt_selected (h : cutPointsFrom entries startIndex entries.length ≠ []) {index : ℕ}
    (hreaches : Reaches estimateTokens entries keepRecentTokens index)
    (hnot : ¬ Reaches estimateTokens entries keepRecentTokens (index + 1)) :
    Selected estimateTokens entries startIndex keepRecentTokens
      (cutAt (cutPointsFrom entries startIndex entries.length) index) := by
  obtain ⟨hstart, hcut⟩ := mem_cutPointsFrom_iff.mp (cutAt_mem h index)
  have hsorted := @cutPointsFrom_sorted _ entries startIndex entries.length
  cases hfind : (cutPointsFrom entries startIndex entries.length).find?
      fun candidate => index ≤ candidate with
  | some found =>
    have hat : cutAt (cutPointsFrom entries startIndex entries.length) index = found := by
      rw [cutAt, hfind]
      rfl
    rw [hat] at hstart hcut ⊢
    obtain ⟨hle, front, back, hsplit, hfront⟩ := find?_eq_some_iff_append.mp hfind
    refine ⟨hstart, hcut, fun earlier hearlier hlt hcutEarlier => ?_, fun later hlt _ hlater => ?_⟩
    · have hmem := mem_cutPointsFrom_iff.mpr ⟨hearlier, hcutEarlier⟩
      rw [hsplit] at hmem hsorted
      rcases mem_append.mp hmem with hmem | hmem
      · have hnotle := hfront earlier hmem
        have hlt' : ¬ index ≤ earlier := by simpa using hnotle
        exact hreaches.mono (by omega)
      · rcases mem_cons.mp hmem with rfl | hmem
        · exact absurd hlt (lt_irrefl _)
        · have hge := (pairwise_cons.mp (pairwise_append.mp hsorted).2.1).1 earlier hmem
          omega
    · exact hnot (hlater.mono (Nat.succ_le_succ (of_decide_eq_true hle)))
  | none =>
    obtain ⟨front, last, hlast⟩ : ∃ front last,
        cutPointsFrom entries startIndex entries.length = front ++ [last] :=
      ⟨_, _, (dropLast_append_getLast h).symm⟩
    have hat : cutAt (cutPointsFrom entries startIndex entries.length) index = last := by
      rw [cutAt, hfind, hlast, getLast?_append]
      rfl
    rw [hat] at hstart hcut ⊢
    have hbefore : ∀ other, startIndex ≤ other → isCutPointAt entries other = true →
        other < index := by
      intro other hother hcutOther
      have hnotle := find?_eq_none.mp hfind other (mem_cutPointsFrom_iff.mpr ⟨hother, hcutOther⟩)
      have hlt : ¬ index ≤ other := by simpa using hnotle
      omega
    refine ⟨hstart, hcut, fun earlier hearlier _ hcutEarlier => ?_, fun later hlt hcutLater => ?_⟩
    · exact hreaches.mono (hbefore earlier hearlier hcutEarlier)
    · have hmem := mem_cutPointsFrom_iff.mpr ⟨hstart.trans hlt.le, hcutLater⟩
      rw [hlast] at hmem hsorted
      rcases mem_append.mp hmem with hmem | hmem
      · have hle := (pairwise_append.mp hsorted).2.2 later hmem last
          (mem_singleton_self _)
        omega
      · rw [mem_singleton.mp hmem] at hlt
        exact absurd hlt (lt_irrefl _)

theorem findProjectedCutPoint_selected (h : cutPointsFrom entries startIndex entries.length ≠ [])
    (hstart : startIndex ≤ entries.length) :
    ∃ candidate, Selected estimateTokens entries startIndex keepRecentTokens candidate ∧
      Settles entries startIndex
        (pushed estimateTokens entries getTime startIndex keepRecentTokens candidate)
        (findProjectedCutPoint estimateTokens getTime entries startIndex entries.length
          keepRecentTokens).firstKeptEntryIndex := by
  have hzero : tokensFrom estimateTokens entries entries.length = 0 := by
    rw [tokensFrom, drop_length]
    rfl
  obtain ⟨hsome, hnone⟩ := @budgetIndex_spec _ estimateTokens entries startIndex keepRecentTokens
    entries.length hstart not_reaches_length
  rw [hzero] at hsome hnone
  rw [findProjectedCutPoint, if_neg h]
  dsimp only
  rw [cutIndexOf]
  cases hbudget : budgetIndex estimateTokens entries startIndex keepRecentTokens 0
      entries.length with
  | none =>
    have hnot := hnone hbudget
    obtain ⟨first, rest, hcuts⟩ := exists_cons_of_ne_nil h
    obtain ⟨hfirst, hcut⟩ := mem_cutPointsFrom_iff.mp (hcuts ▸ mem_cons_self)
    refine ⟨first, ⟨hfirst, hcut, fun earlier hearlier hlt hcutEarlier => ?_,
      fun later hlt _ hlater => ?_⟩, ?_⟩
    · have hmem := mem_cutPointsFrom_iff.mpr ⟨hearlier, hcutEarlier⟩
      have hsorted := @cutPointsFrom_sorted _ entries startIndex entries.length
      rw [hcuts] at hmem hsorted
      rcases mem_cons.mp hmem with rfl | hmem
      · exact absurd hlt (lt_irrefl _)
      · have hge := (pairwise_cons.mp hsorted).1 earlier hmem
        omega
    · exact hnot (hlater.mono (by omega))
    · rw [settles_iff (le_pushed hfirst), pushed, if_neg fun hboth => hnot hboth.1, hcuts]
      rfl
  | some index =>
    obtain ⟨hle, hreaches, hnot⟩ := hsome index hbudget
    have hselected := cutAt_selected h hreaches hnot
    refine ⟨_, hselected, (settles_iff (le_pushed hselected.start)).mpr ?_⟩
    rw [pushed, take_length]
    refine congrArg (moveBack entries startIndex) ?_
    dsimp only
    by_cases hsuffix : isRecoveryOmissionSuffix getTime
        (entries.drop (cutAt (cutPointsFrom entries startIndex entries.length) index + 1)) = true
    · rw [if_pos hsuffix, if_pos ⟨hreaches.mono hle, hsuffix⟩]
    · rw [if_neg hsuffix, if_neg fun hboth => hsuffix hboth.2]

end

/-! ### Calls and their results -/

def SessionEntry.isAssistantMessage (entry : SessionEntry ρ) : Bool :=
  match entry.body with
  | .message message => message.role = .assistant
  | _ => false

def SessionEntry.isToolResult (entry : SessionEntry ρ) : Bool :=
  match entry.body with
  | .message message => message.role = .toolResult
  | _ => false

def Block.callId? : Block ρ → Option Text
  | .toolCall callId _ => some callId
  | _ => none

/-- The ids of a message's tool calls. -/
def SessionEntry.callIds (entry : SessionEntry ρ) : List Text :=
  match entry.body with
  | .message message =>
    match message.content with
    | .blocks blocks => blocks.filterMap Block.callId?
    | _ => []
  | _ => []

def SessionEntry.toolCallId (entry : SessionEntry ρ) : Option Text :=
  match entry.body with
  | .message message =>
    match message.fields with
    | .toolResult toolCallId _ => some toolCallId
    | _ => none
  | _ => none

/-- The tool result at `j` belongs to a call of the assistant message at `i`: it follows it and
precedes the next one. -/
structure Belongs (path : Entries ρ) (i j : ℕ) : Prop where
  lt : i < j
  call : ∃ message, path[i]? = some message ∧ message.isAssistantMessage = true ∧
    ∃ result, path[j]? = some result ∧ result.isToolResult = true ∧
      ∃ callId ∈ message.callIds, result.toolCallId = some callId
  next : ∀ between entry, i < between → between < j → path[between]? = some entry →
    entry.isAssistantMessage = false

/-- Every tool result belongs to a call. -/
def Paired (path : Entries ρ) : Prop :=
  ∀ (j : ℕ) (result : SessionEntry ρ), path[j]? = some result → result.isToolResult = true →
    ∃ i, Belongs path i j

/-- No tool result at or behind the entry with the id belongs to a call before it. -/
def KeepsResults (path : Entries ρ) (firstKeptEntryId : Ident) : Prop :=
  ∀ (kept : ℕ) (entry : SessionEntry ρ), path[kept]? = some entry → entry.id = firstKeptEntryId →
    ∀ i j, i < kept → kept ≤ j → ¬ Belongs path i j

/-- A call or a result. -/
def SessionEntry.isExchange (entry : SessionEntry ρ) : Bool :=
  entry.isAssistantMessage || entry.isToolResult

/-- The first assistant message or tool result is a tool result. -/
def opensWithResult (entries : Entries ρ) : Bool :=
  (entries.find? SessionEntry.isExchange).any SessionEntry.isToolResult

/-- The cut point that the tokens select settles where no result of an earlier message comes next. -/
def Undivided (estimateTokens : AgentMessage ρ → ℕ) (entries : Projected ρ)
    (getTime : Text → Option ℤ) (startIndex : ℕ) (keepRecentTokens : ℤ) : Prop :=
  ∀ candidate index, Selected estimateTokens entries startIndex keepRecentTokens candidate →
    Settles entries startIndex
      (pushed estimateTokens entries getTime startIndex keepRecentTokens candidate) index →
    opensWithResult ((entries.drop index).map (·.sourceEntry)) = false

section

variable {path front back : Entries ρ} {first : SessionEntry ρ}

theorem isExchange_plain {entry : SessionEntry ρ} (h : entry.isExchange = true) :
    entry.isPlain = true := by
  obtain ⟨_, _, _, body⟩ := entry
  cases body with
  | message message =>
    obtain ⟨role, content, fields, time⟩ := message
    cases role <;> first | rfl | cases h
  | _ => cases h

theorem opensWithResult_plain (entries : Entries ρ) :
    opensWithResult (entries.filter SessionEntry.isPlain) = opensWithResult entries := by
  rw [opensWithResult, opensWithResult, find?_filter]
  refine congrArg (Option.any _) (congrArg (find? · entries) (funext fun entry => ?_))
  cases hexchange : entry.isExchange with
  | false => exact decide_eq_false fun h => Bool.false_ne_true h.2
  | true => exact decide_eq_true ⟨isExchange_plain hexchange, rfl⟩

theorem keepsResults_iff_opens (hdistinct : (path.map (·.id)).Nodup) (hpaired : Paired path)
    (hsplit : path = front ++ first :: back) :
    KeepsResults path first.id ↔ opensWithResult (first :: back) = false := by
  have hfirst : path[front.length]? = some first := by
    rw [hsplit, getElem?_append_right le_rfl, Nat.sub_self]
    rfl
  have hbehind : ∀ n, path[front.length + n]? = (first :: back)[n]? := fun n => by
    rw [hsplit, getElem?_append_right (Nat.le_add_right _ _), Nat.add_sub_cancel_left]
  constructor
  · -- the first result is cut off: its assistant message does not stand behind the cut
    intro hkeeps
    by_contra hopens
    rw [Bool.not_eq_false, opensWithResult, Option.any_eq_true] at hopens
    obtain ⟨result, hfind, hresult⟩ := hopens
    obtain ⟨-, before, behind, hat, hbefore⟩ := find?_eq_some_iff_append.mp hfind
    have hget : path[front.length + before.length]? = some result := by
      rw [hbehind, hat, getElem?_append_right le_rfl, Nat.sub_self]
      rfl
    obtain ⟨i, hbelongs⟩ := hpaired _ result hget hresult
    refine hkeeps front.length first hfirst rfl i _ ?_ (Nat.le_add_right _ _) hbelongs
    by_contra hge
    obtain ⟨n, rfl⟩ := Nat.exists_eq_add_of_le (not_lt.mp hge)
    obtain ⟨message, hmessage, hassistant, -⟩ := hbelongs.call
    have hlt : n < before.length := Nat.lt_of_add_lt_add_left hbelongs.lt
    rw [hbehind, hat, getElem?_append_left hlt] at hmessage
    have hnone := hbefore message (mem_of_getElem? hmessage)
    rw [SessionEntry.isExchange, hassistant] at hnone
    cases hnone
  · -- an assistant message stands at or behind the cut, before the result
    intro hopens kept entry hentry hid i j hi hj hbelongs
    obtain rfl : kept = front.length := by
      have hlt : kept < (path.map (·.id)).length := by
        rw [length_map]
        exact (List.getElem?_eq_some_iff.mp hentry).1
      refine (getElem?_inj hlt hdistinct).mp ?_
      rw [getElem?_map, getElem?_map, hentry, hfirst, map_some, map_some, hid]
    obtain ⟨message, hmessage, hassistant, result, hresult, hisResult, -⟩ := hbelongs.call
    obtain ⟨n, rfl⟩ := Nat.exists_eq_add_of_le hj
    rw [hbehind] at hresult
    cases hfind : (first :: back).find? SessionEntry.isExchange with
    | none =>
      have hnot := find?_eq_none.mp hfind result (mem_of_getElem? hresult)
      rw [SessionEntry.isExchange, hisResult, Bool.or_true] at hnot
      exact hnot rfl
    | some found =>
      obtain ⟨hexchange, before, behind, hat, hbefore⟩ := find?_eq_some_iff_append.mp hfind
      rw [opensWithResult, hfind] at hopens
      have hnotResult : found.isToolResult = false := hopens
      have hfound : (first :: back)[before.length]? = some found := by
        rw [hat, getElem?_append_right le_rfl, Nat.sub_self]
        rfl
      have hlt : before.length < n := by
        rcases lt_trichotomy before.length n with hlt | rfl | hlt
        · exact hlt
        · rw [hfound] at hresult
          cases hresult
          rw [hisResult] at hnotResult
          cases hnotResult
        · rw [hat, getElem?_append_left hlt] at hresult
          have hnone := hbefore result (mem_of_getElem? hresult)
          rw [SessionEntry.isExchange, hisResult, Bool.or_true] at hnone
          cases hnone
      have hassistantFound := hbelongs.next (front.length + before.length) found (by omega)
        (by omega) (by rw [hbehind, hfound])
      rw [SessionEntry.isExchange, hassistantFound, hnotResult] at hexchange
      cases hexchange

end

/-- Compaction keeps every tool result with its call exactly when the cut point that the tokens
select does not settle between an assistant message and one of its results. -/
theorem keepsResults_iff {getTime : Text → Option ℤ} {estimateTokens : AgentMessage ρ → ℕ}
    {path : Entries ρ} {parentId : Ident} (hchain : IsChain parentId path)
    (hpaired : Paired path) {keepRecentTokens : ℤ} {fuel : ℕ}
    {preparation : CompactionPreparation ρ}
    (hprepare : prepareCompaction estimateTokens getTime path keepRecentTokens fuel =
      some (some preparation)) :
    KeepsResults path preparation.firstKeptEntryId ↔
      Undivided estimateTokens (projectPath getTime path).entries getTime
        (boundaryStart (projectPath getTime path).entries) keepRecentTokens := by
  have hprepared := prepareProjection_of_prepareCompaction hchain hprepare
  obtain ⟨hcutPoints, first, rest, hcuts⟩ := prepareProjection_cuts hprepared
  have hsources := @sourceEntries_projectPath _ getTime path
  rw [map_split hcuts.split] at hsources
  obtain ⟨front, back, hlies⟩ := exists_lies hchain.distinct hsources.symm hcuts.plain
  rw [← hcuts.id, keepsResults_iff_opens hchain.distinct hpaired hlies.split,
    ← opensWithResult_plain, hlies.filter_plain, opensWithResult_plain, ← map_cons]
  obtain ⟨selected, hselected, hsettles⟩ := @findProjectedCutPoint_selected _ estimateTokens
    (projectPath getTime path).entries (boundaryStart (projectPath getTime path).entries)
    keepRecentTokens getTime hcutPoints (hcuts.start.trans (length_take_le' _ _))
  have hkept := append_cancel_left ((take_append_drop _ _).trans hcuts.split)
  constructor
  · intro h candidate index hcandidate hindex
    obtain rfl := hcandidate.unique hselected
    have hat := (settles_iff (le_pushed hcandidate.start)).mp hindex
    rw [hat, ← (settles_iff (le_pushed hcandidate.start)).mp hsettles, hkept]
    exact h
  · intro h
    rw [← hkept]
    exact h selected _ hselected hsettles

/-- A question, a call, a message of an extension, the call's result and an answer. -/
def interruptedEntries : Entries Unit :=
  [⟨.string [97], .null, [], .message ⟨.user, .text [104], .other (), none⟩⟩, ⟨.string [98], .string
    [97], [], .message ⟨.assistant, .blocks [.toolCall [116] ()], .assistant [112] [109] (), none⟩⟩,
    ⟨.string [99], .string [98], [], .customMessage [120] (.text [110]) true ()⟩, ⟨.string [100],
    .string [99], [], .message ⟨.toolResult, .blocks [.text [114]], .toolResult [116] (), none⟩⟩,
    ⟨.string [101], .string [100], [], .message ⟨.assistant, .text [107], .assistant [112] [109] (),
    none⟩⟩]

theorem interruptedEntries_belongs : Belongs interruptedEntries 1 3 where
  lt := by decide
  call := ⟨_, rfl, rfl, _, rfl, rfl, [116], mem_singleton_self _, rfl⟩
  next := by
    intro between entry hlt hlt' hentry
    obtain rfl : between = 2 := by omega
    cases hentry
    rfl

theorem interruptedEntries_paired : Paired interruptedEntries := by
  intro j result hresult hisResult
  have hlt : j < 5 := (List.getElem?_eq_some_iff.mp hresult).1
  interval_cases j <;> cases hresult <;> first | exact ⟨1, interruptedEntries_belongs⟩ | cases hisResult

theorem interruptedEntries_isChain : IsChain .null interruptedEntries where
  chained := ⟨rfl, rfl, rfl, rfl, rfl, trivial⟩
  root := fun h => by cases h
  distinct := by decide
  truthy := by simp [interruptedEntries, Ident.truthy]

theorem interrupted_orphans : ¬ KeepsResults interruptedEntries (.string [99]) := fun h =>
  h 2 _ rfl rfl 1 3 (by decide) (by decide) interruptedEntries_belongs

/-- With a budget for three messages the message of the extension is selected, with a budget for one
the answer. -/
theorem interrupted_selected :
    ¬ Undivided (fun _ => 1) (projectPath (fun _ => none) interruptedEntries).entries
      (fun _ => none) (boundaryStart (projectPath (fun _ => none) interruptedEntries).entries) 3 ∧
    KeepsResults interruptedEntries (.string [101]) := by
  obtain ⟨wide, hwide, hwideId⟩ : ∃ preparation, prepareCompaction (fun _ => 1) (fun _ => none)
      interruptedEntries 3 5 = some (some preparation) ∧
        preparation.firstKeptEntryId = .string [99] := ⟨_, rfl, rfl⟩
  obtain ⟨narrow, hnarrow, hnarrowId⟩ : ∃ preparation, prepareCompaction (fun _ => 1)
      (fun _ => none) interruptedEntries 1 5 = some (some preparation) ∧
        preparation.firstKeptEntryId = .string [101] := ⟨_, rfl, rfl⟩
  have hwideIff := keepsResults_iff interruptedEntries_isChain interruptedEntries_paired hwide
  have hnarrowIff := keepsResults_iff interruptedEntries_isChain interruptedEntries_paired hnarrow
  rw [hwideId] at hwideIff
  rw [hnarrowId] at hnarrowIff
  refine ⟨fun h => interrupted_orphans (hwideIff.mpr h), hnarrowIff.mpr ?_⟩
  have hlast : ∀ candidate, Selected (fun _ => 1)
      (projectPath (fun _ => none) interruptedEntries).entries 0 1 candidate → candidate = 4 := by
    intro candidate h
    have hmem : candidate ∈ [0, 1, 2, 4] := mem_cutPointsFrom_iff.mpr ⟨h.start, h.cutPoint⟩
    simp only [mem_cons, not_mem_nil, or_false] at hmem
    obtain rfl | rfl | rfl | rfl := hmem
    · exact absurd (by decide) (h.behind 4 (by decide) rfl)
    · exact absurd (by decide) (h.behind 4 (by decide) rfl)
    · exact absurd (by decide) (h.behind 4 (by decide) rfl)
    · rfl
  intro candidate index hcandidate hindex
  obtain rfl := hlast candidate hcandidate
  rw [(settles_iff (le_pushed hcandidate.start)).mp hindex]
  rfl

/-- The cut falls there, between the call and its result. -/
theorem interrupted_cut : ∃ preparation,
    prepareCompaction (fun _ => 1) (fun _ => none) interruptedEntries 3 5 =
      some (some preparation) ∧ Paired interruptedEntries ∧
    ¬ KeepsResults interruptedEntries preparation.firstKeptEntryId :=
  ⟨_, rfl, interruptedEntries_paired, interrupted_orphans⟩

end KnightCode.Session
