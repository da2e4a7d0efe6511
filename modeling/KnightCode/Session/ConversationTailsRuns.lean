import KnightCode.Durable.MemoryEntriesPages
import KnightCode.Session.ConversationTailsStore

/-!
# Conversation tails in every run

Both tables stay behind the Storage: what they show of a conversation, the unpublished commits make
what Storage has. A call begins and ends without an unpublished entry of its conversation, so what
it finds or keeps is what Storage has, whatever is evicted and published around it.
-/

namespace KnightCode

open List Memory State Follower Except

variable {ρ : Type} {n m : ℕ} {owned : ℕ → Bool}

namespace ConversationTails

variable {t : ConversationTails ρ n m} {s : State ρ} {w : StorageWrite ρ}
  {writes pending : Writes ρ}

/-! ### Publication -/

theorem heard_set {β : Type} {k c : ℤ} {v x : β} {table : Lru ℤ β n}
    (h : (table.set k v).peek c = some x) :
    some (k, v) = some (c, x) ∨ table.peek c = some x ∧ ∀ y, some (k, v) ≠ some (c, y) := by
  obtain ⟨rfl, rfl⟩ | ⟨hne, hold⟩ := Lru.peek_set h
  · exact .inl rfl
  · refine .inr ⟨hold, fun y heq => hne ?_⟩
    cases heq
    rfl

theorem hear_latest (h : (tailOf entryId).Behind s (w :: pending) t.latest.peek) :
    (tailOf entryId).Behind s pending (t.applyWrite w).latest.peek := by
  apply h.hear
  · intro c x hx
    cases w with
    | entry entry => exact hx
    | _ => cases hx
  · intro c v hv
    cases w with
    | conversation value =>
      rw [applyWrite] at hv
      dsimp only [tailOf]
      split_ifs at hv ⊢ with hparent
      · exact .inr ⟨hv, fun _ heq => by cases heq⟩
      · exact heard_set hv
    | entry entry => exact heard_set hv
    | _ => exact .inr ⟨hv, fun _ heq => by cases heq⟩

theorem hear_markers (h : (tailOf headMarker).Behind s (w :: pending) t.markers.peek) :
    (tailOf headMarker).Behind s pending (t.applyWrite w).markers.peek := by
  apply h.hear
  · intro c x hx
    cases w with
    | entry entry => exact hx
    | _ => cases hx
  · intro c v hv
    cases w with
    | conversation value =>
      rw [applyWrite] at hv
      dsimp only [tailOf]
      split_ifs at hv ⊢ with hparent
      · exact .inr ⟨hv, fun _ heq => by cases heq⟩
      · exact heard_set hv
    | entry entry =>
      dsimp only [applyWrite] at hv
      dsimp only [tailOf, headMarker]
      split_ifs at hv ⊢ with hhead
      · exact heard_set hv
      · exact .inr ⟨hv, fun _ heq => by cases heq⟩
    | _ => exact .inr ⟨hv, fun _ heq => by cases heq⟩

theorem hear_batch (hlatest : (tailOf entryId).Behind s (writes ++ pending) t.latest.peek)
    (hmarkers : (tailOf headMarker).Behind s (writes ++ pending) t.markers.peek) :
    (tailOf entryId).Behind s pending (t.apply writes).latest.peek ∧
      (tailOf headMarker).Behind s pending (t.apply writes).markers.peek := by
  induction writes generalizing t with
  | nil => exact ⟨hlatest, hmarkers⟩
  | cons w writes ih => exact ih (hear_latest hlatest) (hear_markers hmarkers)

end ConversationTails

namespace TailSession

variable {s s' : TailSession ρ n m} {c : ℤ}
variable {writes : Writes ρ} {prepared : PreparedMemoryCommit ρ}

/-- What a call has read so far is what Storage has. -/
def Right (stored : State ρ) : TailRead ρ → Prop
  | .latest c answer => ∀ id, answer = some id →
      stored.HasConversation c ∧ id = stored.newest entryId c
  | .marker c cutoff latest answer =>
    (∀ id, latest = some id → stored.HasConversation c ∧ id = stored.newest entryId c) ∧
    ∀ found, answer = some found →
      stored.HasConversation c ∧ found = stored.newest (headMarkerAt cutoff) c

structure Invariant (s : TailSession ρ n m) : Prop where
  forest : s.stored.Forest
  typed : s.stored.Typed
  latest : (tailOf entryId).Behind s.stored s.unpublished.flatten s.tails.latest.peek
  markers : (tailOf headMarker).Behind s.stored s.unpublished.flatten s.tails.markers.peek
  published : ∀ read ∈ s.reads, s.Published read.conversationId
  right : ∀ read ∈ s.reads, Right s.stored read

theorem untouched_of {τ : Type} (select : EntryRecord ρ → Option τ)
    (h : ∀ entry, .entry entry ∈ writes → entry.conversationId ≠ c) :
    (tailOf select).Untouched c writes := by
  intro w hmem x hx
  cases w with
  | entry entry =>
    obtain ⟨y, -, heq⟩ := Option.map_eq_some_iff.mp hx
    cases heq
    exact h entry hmem rfl
  | _ => cases hx

theorem Published.untouched {τ : Type} (select : EntryRecord ρ → Option τ)
    (h : s.Published c) : (tailOf select).Untouched c s.unpublished.flatten := by
  apply untouched_of
  intro entry hmem
  obtain ⟨writes, hwrites, hentry⟩ := mem_flatten.mp hmem
  exact h writes hwrites entry hentry

/-! ### Commits and publications -/

theorem newest_commit {τ : Type} (select : EntryRecord ρ → Option τ) {st : State ρ}
    {writes : Writes ρ} {seq : ℤ} {prepared : PreparedMemoryCommit ρ}
    (hs : st.Forest) (htyped : st.Typed) (hminted : st.MintedAll seq writes)
    (h : st.prepareCommit owned writes seq = .ok prepared)
    (hquiet : ∀ entry, .entry entry ∈ writes → entry.conversationId ≠ c)
    (hc : st.HasConversation c) :
    (st.apply prepared).HasConversation c ∧
      st.newest select c = (st.apply prepared).newest select c := by
  have hread : (tailOf select).Behind st []
      (fun k => if c = k then some (st.newest select c) else none) := by
    refine (Behind.empty st).read (k := c) hc (fun _ hmem => absurd hmem not_mem_nil) ?_
    intro k v hv
    split_ifs at hv with hk
    cases hv
    exact .inl ⟨hk, rfl⟩
  have hbehind := behind_commit hs htyped hminted h hread
  exact hbehind.exact (if_pos rfl) (untouched_of select hquiet)

theorem Right.commit {read : TailRead ρ} {st : State ρ} {seq : ℤ} (hs : st.Forest)
    (htyped : st.Typed) (hminted : st.MintedAll seq writes)
    (h : st.prepareCommit owned writes seq = .ok prepared)
    (hquiet : ∀ entry, .entry entry ∈ writes → entry.conversationId ≠ read.conversationId)
    (hread : Right st read) : Right (st.apply prepared) read := by
  cases read with
  | latest c answer =>
    intro id hid
    obtain ⟨hc, rfl⟩ := hread id hid
    exact newest_commit entryId hs htyped hminted h hquiet hc
  | marker c cutoff latest answer =>
    refine ⟨fun id hid => ?_, fun found hfound => ?_⟩
    · obtain ⟨hc, rfl⟩ := hread.1 id hid
      exact newest_commit entryId hs htyped hminted h hquiet hc
    · obtain ⟨hc, rfl⟩ := hread.2 found hfound
      exact newest_commit (headMarkerAt cutoff) hs htyped hminted h hquiet hc

theorem Invariant.commit (h : s.Invariant) {seq : ℤ} (hminted : s.stored.MintedAll seq writes)
    (hprepared : s.stored.prepareCommit owned writes seq = .ok prepared)
    (hquiet : ∀ read ∈ s.reads, ∀ entry, .entry entry ∈ writes →
      entry.conversationId ≠ read.conversationId) :
    Invariant { s with
      stored := s.stored.apply prepared, unpublished := s.unpublished ++ [writes] } := by
  obtain ⟨hforest, htyped, -⟩ := commit_step h.forest h.typed hminted hprepared
  have hflatten : (s.unpublished ++ [writes]).flatten = s.unpublished.flatten ++ writes := by
    simp
  refine ⟨hforest, htyped, ?_, ?_, fun read hmem batch hbatch => ?_, fun read hmem => ?_⟩
  · rw [hflatten]
    exact behind_commit h.forest h.typed hminted hprepared h.latest
  · rw [hflatten]
    exact behind_commit h.forest h.typed hminted hprepared h.markers
  · rcases mem_append.mp hbatch with hbatch | hbatch
    · exact h.published read hmem batch hbatch
    · obtain rfl := mem_singleton.mp hbatch
      exact hquiet read hmem
  · exact (h.right read hmem).commit h.forest h.typed hminted hprepared (hquiet read hmem)

theorem Invariant.publish (h : s.Invariant) {rest : List (Writes ρ)}
    (hnext : s.unpublished = writes :: rest) :
    Invariant { s with unpublished := rest, tails := s.tails.apply writes } := by
  have hlatest := h.latest
  have hmarkers := h.markers
  rw [hnext, flatten_cons] at hlatest hmarkers
  obtain ⟨hlatest', hmarkers'⟩ := ConversationTails.hear_batch hlatest hmarkers
  refine ⟨h.forest, h.typed, hlatest', hmarkers', fun read hmem batch hbatch => ?_, h.right⟩
  apply h.published read hmem batch
  rw [hnext]
  exact mem_cons_of_mem _ hbatch

/-! ### Calls -/

variable {tails : ConversationTails ρ n m}

theorem Invariant.forget (h : s.Invariant) {reads : List (TailRead ρ)}
    (hlatest : ∀ c, tails.latest.peek c = s.tails.latest.peek c)
    (hmarkers : ∀ c, tails.markers.peek c = s.tails.markers.peek c)
    (hpublished : ∀ read ∈ reads, s.Published read.conversationId)
    (hright : ∀ read ∈ reads, Right s.stored read) :
    Invariant { s with tails := tails, reads := reads } := by
  refine ⟨h.forest, h.typed, h.latest.forget fun c v hv => ?_, h.markers.forget fun c v hv => ?_,
    hpublished, hright⟩
  · rw [← hlatest c]
    exact hv
  · rw [← hmarkers c]
    exact hv

variable {id : Option ℤ}

theorem Invariant.known (h : s.Invariant) (hid : s.tails.peek c = some id)
    (hpublished : s.Published c) : s.stored.HasConversation c ∧ id = s.stored.newest entryId c :=
  h.latest.exact hid (hpublished.untouched entryId)

theorem Invariant.latestKnown (h : s.Invariant) (hpublished : s.Published c)
    (hid : (s.tails.latestKnown c).1 = some id) :
    s.stored.HasConversation c ∧ id = s.stored.newest entryId c := by
  apply h.known _ hpublished
  rw [ConversationTails.peek, ← Lru.get_fst]
  exact hid

variable {found : Option (EntryRecord ρ)}

theorem Invariant.markerKnown (h : s.Invariant) {cutoff : Option ℤ} (hpublished : s.Published c)
    (hfound : (s.tails.markerKnown c cutoff).1 = some found) :
    s.stored.findLatestHeadMarker c cutoff = .ok found := by
  rw [ConversationTails.markerKnown] at hfound
  dsimp only at hfound
  rw [Lru.get_fst] at hfound
  have hexact : ∀ v, s.tails.markers.peek c = some v →
      s.stored.HasConversation c ∧ v = s.stored.newest headMarker c :=
    fun v hv => h.markers.exact hv (hpublished.untouched headMarker)
  split at hfound
  · next hpeek =>
    obtain ⟨hc, hnone⟩ := hexact none hpeek
    cases hfound
    exact readMarker_known h.forest hc hnone.symm nofun
  · next marker hpeek =>
    obtain ⟨hc, hsome⟩ := hexact (some marker) hpeek
    split_ifs at hfound with hcutoff
    cases hfound
    refine readMarker_known h.forest hc hsome.symm fun other heq => ?_
    cases heq
    exact hcutoff
  · cases hfound

theorem Invariant.append (h : s.Invariant) {read : TailRead ρ}
    (hlatest : ∀ c, tails.latest.peek c = s.tails.latest.peek c)
    (hmarkers : ∀ c, tails.markers.peek c = s.tails.markers.peek c)
    (hpublished : s.Published read.conversationId) (hright : Right s.stored read) :
    Invariant { s with tails := tails, reads := s.reads ++ [read] } := by
  refine h.forget hlatest hmarkers (fun other hmem => ?_) fun other hmem => ?_
  · rcases mem_append.mp hmem with hmem | hmem
    · exact h.published other hmem
    · rw [mem_singleton.mp hmem]
      exact hpublished
  · rcases mem_append.mp hmem with hmem | hmem
    · exact h.right other hmem
    · rw [mem_singleton.mp hmem]
      exact hright

theorem Invariant.answer (h : s.Invariant) {i : ℕ} {read answered : TailRead ρ}
    (hread : s.reads[i]? = some read) (hsame : answered.conversationId = read.conversationId)
    (hright : Right s.stored answered) : Invariant { s with reads := s.reads.set i answered } := by
  refine h.forget (fun _ => rfl) (fun _ => rfl) (fun other hmem => ?_) fun other hmem => ?_
  · rcases mem_or_eq_of_mem_set hmem with hmem | rfl
    · exact h.published other hmem
    · rw [hsame]
      exact h.published read (mem_of_getElem? hread)
  · rcases mem_or_eq_of_mem_set hmem with hmem | rfl
    · exact h.right other hmem
    · exact hright

theorem Invariant.finishLatest (h : s.Invariant) {i : ℕ}
    (hread : s.reads[i]? = some (.latest c (some id))) :
    Invariant { s with tails := s.tails.latestRead c id, reads := s.reads.eraseIdx i } := by
  have hmem := mem_of_getElem? hread
  obtain ⟨hc, hid⟩ := h.right _ hmem id rfl
  have hpublished := h.published _ hmem
  refine ⟨h.forest, h.typed, ?_, h.markers, fun other hother => h.published other
    (mem_of_mem_eraseIdx hother), fun other hother => h.right other (mem_of_mem_eraseIdx hother)⟩
  refine h.latest.read hc (hpublished.untouched entryId) fun c' v hv => ?_
  obtain ⟨rfl, rfl⟩ | ⟨-, hold⟩ := Lru.peek_set hv
  · exact .inl ⟨rfl, hid.symm⟩
  · exact .inr hold

theorem Invariant.finishMarker (h : s.Invariant) {i : ℕ} {cutoff : Option ℤ}
    {latest : Option (Option ℤ)}
    (hread : s.reads[i]? = some (.marker c cutoff latest (some found))) :
    Invariant { s with
      tails := s.tails.markerRead c cutoff latest found, reads := s.reads.eraseIdx i } := by
  have hmem := mem_of_getElem? hread
  obtain ⟨hlatest, hfound⟩ := h.right _ hmem
  obtain ⟨hc, hfound⟩ := hfound found rfl
  have hpublished := h.published _ hmem
  have herase := fun other (hother : other ∈ s.reads.eraseIdx i) =>
    h.published other (mem_of_mem_eraseIdx hother)
  have hright := fun other (hother : other ∈ s.reads.eraseIdx i) =>
    h.right other (mem_of_mem_eraseIdx hother)
  rw [ConversationTails.markerRead]
  split_ifs with hkeep
  · -- no entry comes behind the cutoff, so what was read is the newest head marker
    have hnewest : found = s.stored.newest headMarker c := by
      have hcutoff : cutoff.all
          (fun cutoff => (s.stored.newest entryId c).getD 0 ≤ cutoff) = true := by
        cases cutoff with
        | none => rfl
        | some cutoff =>
          cases latest with
          | none => cases hkeep
          | some id =>
            obtain ⟨-, rfl⟩ := hlatest id rfl
            exact hkeep
      have hanswer := readMarker_eq h.forest hc cutoff
      rw [readMarker_newest h.forest hc hcutoff, ok.injEq, ← hfound] at hanswer
      exact hanswer.symm
    refine ⟨h.forest, h.typed, h.latest, ?_, herase, hright⟩
    refine h.markers.read hc (hpublished.untouched headMarker) fun c' v hv => ?_
    obtain ⟨rfl, rfl⟩ | ⟨-, hold⟩ := Lru.peek_set hv
    · exact .inl ⟨rfl, hnewest.symm⟩
    · exact .inr hold
  · exact ⟨h.forest, h.typed, h.latest, h.markers, herase, hright⟩

/-! ### Runs -/

variable {act : TailAct ρ × TailOutput ρ}

theorem Invariant.step (h : s.Invariant) (hquiet : s.Quiet act) (hstep : Step owned s act s') :
    s'.Invariant := by
  cases hstep with
  | commit hminted hprepared => exact h.commit hminted hprepared hquiet
  | publish hnext => exact h.publish hnext
  | latestKnown _ =>
    exact h.forget (fun k => Lru.peek_get _ _ k) (fun _ => rfl) h.published h.right
  | latestUnknown _ =>
    exact h.append (fun k => Lru.peek_get _ _ k) (fun _ => rfl) hquiet nofun
  | markerKnown _ =>
    exact h.forget (fun _ => rfl) (fun k => Lru.peek_get _ _ k) h.published h.right
  | markerUnknown _ =>
    exact h.append (fun _ => rfl) (fun k => Lru.peek_get _ _ k) hquiet
      ⟨fun id hid => h.known hid hquiet, nofun⟩
  | @answerLatest i c id hread hanswer =>
    refine h.answer hread rfl fun id' hid' => ?_
    cases hid'
    have hc := hasConversation_of_readLatest hanswer
    rw [readLatest_eq h.forest hc, ok.injEq] at hanswer
    exact ⟨hc, hanswer.symm⟩
  | @answerMarker i c cutoff latest found hread hanswer =>
    refine h.answer hread rfl ⟨(h.right _ (mem_of_getElem? hread)).1, fun found' hfound => ?_⟩
    cases hfound
    have hc := hasConversation_of_readMarker hanswer
    rw [readMarker_eq h.forest hc, ok.injEq] at hanswer
    exact ⟨hc, hanswer.symm⟩
  | reject i =>
    exact h.forget (fun _ => rfl) (fun _ => rfl)
      (fun other hother => h.published other (mem_of_mem_eraseIdx hother))
      fun other hother => h.right other (mem_of_mem_eraseIdx hother)
  | finishLatest hread => exact h.finishLatest hread
  | finishMarker hread => exact h.finishMarker hread

theorem reachable_invariant (hs : (system ρ n m owned).ReachableBy Quiet s) : s.Invariant := by
  apply hs.invariant
  · rintro s ⟨hstored, hs⟩
    obtain ⟨hforest, htyped⟩ := reachable_forest hstored
    rw [hs]
    exact ⟨hforest, htyped, .empty _, .empty _, fun _ hmem => absurd hmem not_mem_nil,
      fun _ hmem => absurd hmem not_mem_nil⟩
  · intro s act s' hinv hquiet hstep
    exact hinv.step hquiet hstep

/-- What a step returns is what Storage would answer, the newest that the conversation sees. -/
def Exact (s : TailSession ρ n m) : TailAct ρ × TailOutput ρ → Prop
  | (.latest c, .latest id) => s.stored.readLatest c = .ok id ∧ s.stored.NewestSeen c id
  | (.marker c cutoff, .marker found) =>
    s.stored.findLatestHeadMarker c cutoff = .ok found ∧ s.stored.NewestMarker c cutoff found
  | (.finish i, .latest id) => ∃ c, s.reads[i]? = some (.latest c (some id)) ∧
      s.stored.readLatest c = .ok id ∧ s.stored.NewestSeen c id
  | (.finish i, .marker found) => ∃ c cutoff latest,
      s.reads[i]? = some (.marker c cutoff latest (some found)) ∧
      s.stored.findLatestHeadMarker c cutoff = .ok found ∧ s.stored.NewestMarker c cutoff found
  | _ => True

theorem Invariant.exact (h : s.Invariant) (hquiet : s.Quiet act) (hstep : Step owned s act s') :
    s.Exact act := by
  have hlatest : ∀ {c id}, s.stored.HasConversation c → id = s.stored.newest entryId c →
      s.stored.readLatest c = .ok id ∧ s.stored.NewestSeen c id := by
    rintro c id hc rfl
    have hread := readLatest_eq h.forest hc
    exact ⟨hread, readLatest_newestSeen h.forest hread⟩
  cases hstep with
  | latestKnown hknown =>
    obtain ⟨hc, hid⟩ := h.latestKnown hquiet hknown
    exact hlatest hc hid
  | markerKnown hknown =>
    have hread := h.markerKnown hquiet hknown
    exact ⟨hread, readMarker_newestMarker h.forest hread⟩
  | @finishLatest i c id hread =>
    obtain ⟨hc, hid⟩ := h.right _ (mem_of_getElem? hread) id rfl
    exact ⟨c, hread, hlatest hc hid⟩
  | @finishMarker i c cutoff latest found hread =>
    obtain ⟨hc, hfound⟩ := (h.right _ (mem_of_getElem? hread)).2 found rfl
    have hanswer := readMarker_eq h.forest hc cutoff
    rw [← hfound] at hanswer
    exact ⟨c, cutoff, latest, hread, hanswer, readMarker_newestMarker h.forest hanswer⟩
  | _ => trivial

/-- In every run with tables of any size, whatever is evicted, committed and published around the
calls, `latest` and `marker` return what Storage would answer, and `peek` shows that or nothing. -/
theorem tails_never_stale (hs : (system ρ n m owned).ReachableBy Quiet s) :
    (∀ c id, s.Published c → s.tails.peek c = some id →
      s.stored.readLatest c = .ok id ∧ s.stored.NewestSeen c id) ∧
    ∀ act s', s.Quiet act → Step owned s act s' → s.Exact act := by
  have hinv := reachable_invariant hs
  refine ⟨fun c id hpublished hid => ?_, fun act s' hquiet hstep => hinv.exact hquiet hstep⟩
  obtain ⟨hc, rfl⟩ := hinv.known hid hpublished
  have hread := readLatest_eq hinv.forest hc
  exact ⟨hread, readLatest_newestSeen hinv.forest hread⟩

/-- A call for the conversation that its fork put out of a table of one, with its read answered,
and the calls after it. -/
theorem tails_never_stale_fork : ∃ s : TailSession Unit 1 1,
    (s.tails.peek 2 = none ∧ s.stored.readLatest 2 = .ok (some 4) ∧ s.stored.NewestSeen 2 (some 4)) ∧
    (s.tails.peek 5 = some (some 6) ∧ s.stored.readLatest 5 = .ok (some 6) ∧
      s.stored.NewestSeen 5 (some 6)) ∧
    s.stored.findLatestHeadMarker 2 none = .ok (some ⟨4, 2, some 4, ()⟩) ∧
      s.stored.NewestMarker 2 none (some ⟨4, 2, some 4, ()⟩) := by
  obtain ⟨prepared, hprepared⟩ : ∃ prepared, (State.init : State Unit).prepareCommit
      (fun _ => false) forked 1 = .ok prepared := ⟨_, rfl⟩
  have hstart : (system Unit 1 1 fun _ => false).ReachableBy Quiet ⟨.init, [], .new, []⟩ :=
    ⟨_, ⟨⟨_, rfl, .refl _⟩, rfl⟩, .refl _⟩
  have hcommit := hstart.steps (.single (.commit forked_minted hprepared) nofun)
  have hpublish := hcommit.steps (.single (.publish rfl) trivial)
  cases hprepared
  have hlatest := hpublish.steps (.single (a := (.latest 2, .silent)) (.latestUnknown rfl) nofun)
  have hanswer := hlatest.steps (.single (a := (.answer 0, .silent)) (.answerLatest rfl rfl) trivial)
  obtain ⟨hpeek, hcalls⟩ := tails_never_stale hanswer
  obtain ⟨c, hc, hread⟩ := hcalls (.finish 0, .latest (some 4)) _ trivial (.finishLatest rfl)
  cases hc
  refine ⟨_, ⟨rfl, hread⟩, ⟨rfl, hpeek 5 (some 6) nofun rfl⟩, ?_⟩
  exact hcalls (.marker 2 none, .marker (some ⟨4, 2, some 4, ()⟩)) _ nofun (.markerKnown rfl)

end TailSession

end KnightCode
