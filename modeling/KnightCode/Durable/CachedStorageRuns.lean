import KnightCode.Library.System
import KnightCode.Durable.CachedTasks
import Mathlib.Data.List.Perm.Basic

/-!
# Runs of a record cache

Publications, reads served from the tables, and reads in flight whose Storage result arrives later,
as of any state published since the read started. What is served is the latest published record:
a read in flight that saw an older one finds another version at its record.
-/

namespace KnightCode.RecordCache

open Function List Option

variable {ι ρ : Type*} [DecidableEq ι]

inductive Kind
  | conversation
  | task

/-- A read in flight: the version it found, and how many batches were published at its start. -/
structure Read (ι : Type*) where
  kind : Kind
  id : ι
  version : ℕ
  start : ℕ

structure State (ι ρ : Type*) where
  cache : CachedStorage ι ρ
  log : List (List (StorageWrite ι ρ))
  reading : List (Read ι)

inductive Event (ι ρ : Type*)
  | published (writes : List (StorageWrite ι ρ))
  | conversation (id : ι)
  | task (id : ι)
  | submission (id : ι)
  | resolved (i n : ℕ)
  | failed (i : ℕ)

/-- A call that found nothing in the tables starts a read. -/
def State.call (s : State ι ρ) (kind : Kind) (id : ι) (served : Bool)
    (cache : CachedStorage ι ρ) : State ι ρ :=
  if served then { s with cache }
  else
    let (version, cache) := cache.beginRead id
    { s with
      cache
      reading := s.reading ++ [{ kind, id, version, start := s.log.length }] }

/-- `keep`, at the version found when the read settled. -/
def keep (cache : CachedStorage ι ρ) (found : Store ι ρ) (read : Read ι) (version : ℕ) :
    CachedStorage ι ρ :=
  match read.kind with
  | .conversation =>
    match found.conversations read.id with
    | none => cache
    | some record =>
      if version = read.version then cache.keepConversation read.id record else cache
  | .task =>
    match found.tasks read.id with
    | none => cache
    | some record => if version = read.version then cache.keepTask record else cache

variable (store : Store ι ρ)

inductive Step : State ι ρ → Event ι ρ → State ι ρ → Prop
  | published {s} (writes : List (StorageWrite ι ρ)) {cache : CachedStorage ι ρ}
      (h : s.cache.published writes = some cache) :
      Step s (.published writes) { s with cache, log := s.log ++ [writes] }
  | conversation {s} (id : ι) :
      Step s (.conversation id)
        (s.call .conversation id (s.cache.conversation id).1.isSome (s.cache.conversation id).2)
  | task {s} (id : ι) :
      Step s (.task id) (s.call .task id (s.cache.task id).1.isSome (s.cache.task id).2)
  | submission {s} (id : ι) :
      Step s (.submission id) { s with cache := (s.cache.submission id).2 }
  | resolved {s} (i n : ℕ) {read : Read ι} {version : ℕ} {cache : CachedStorage ι ρ}
      (hi : s.reading[i]? = some read) (hstart : read.start ≤ n) (hn : n ≤ s.log.length)
      (h : s.cache.endRead read.id = some (version, cache)) :
      Step s (.resolved i n)
        { s with
          cache := keep cache (store.after (s.log.take n)) read version
          reading := s.reading.eraseIdx i }
  | failed {s} (i : ℕ) {read : Read ι} {version : ℕ} {cache : CachedStorage ι ρ}
      (hi : s.reading[i]? = some read) (h : s.cache.endRead read.id = some (version, cache)) :
      Step s (.failed i) { s with cache, reading := s.reading.eraseIdx i }

def system : System (State ι ρ) (Event ι ρ) where
  init s := s = { cache := .empty, log := [], reading := [] }
  step := Step store

def State.current (s : State ι ρ) : Store ι ρ :=
  store.after s.log

/-- The last record of each ID written through the cache. -/
def State.written (s : State ι ρ) : Store ι ρ :=
  Store.empty.after s.log

/-! ### Reads in flight -/

namespace CachedStorage

variable (c : CachedStorage ι ρ) (id : ι)

theorem wrote_conversations : (c.wrote id).conversations = c.conversations := by
  unfold wrote
  split <;> rfl

theorem wrote_submissions : (c.wrote id).submissions = c.submissions := by
  unfold wrote
  split <;> rfl

theorem wrote_toTaskTables : (c.wrote id).toTaskTables = c.toTaskTables := by
  unfold wrote
  split <;> rfl

end CachedStorage

def Agree (s s' : Store ι ρ) (read : Read ι) : Prop :=
  match read.kind with
  | .conversation => s.conversations read.id = s'.conversations read.id
  | .task => s.tasks read.id = s'.tasks read.id

omit [DecidableEq ι] in
theorem Agree.trans {s s' s'' : Store ι ρ} {read : Read ι} (h : Agree s s' read)
    (h' : Agree s' s'' read) : Agree s s'' read := by
  unfold Agree at h h' ⊢
  split <;> simp_all

omit [DecidableEq ι] in
theorem Agree.refl (s : Store ι ρ) (read : Read ι) : Agree s s read := by
  unfold Agree
  split <;> rfl

def StorageWrite.id? : StorageWrite ι ρ → Option ι
  | .conversation value => some value.id
  | .task value => some value.id
  | .submission value => some value.id
  | .other => none

theorem agree_write (s : Store ι ρ) {write : StorageWrite ι ρ} {read : Read ι}
    (h : write.id? ≠ some read.id) : Agree s (s.write write) read := by
  unfold Agree
  cases write with
  | conversation value | task value =>
    have hne : read.id ≠ value.id := fun he => h (congrArg some he.symm)
    split <;> simp [Store.write, hne]
  | submission value => split <;> rfl
  | other => split <;> rfl

/-- The table counts the reads in flight, and a read whose version is still the one it found can
only see what is current. -/
structure Followed (seen : Read ι → Store ι ρ → Prop) (current : Store ι ρ)
    (reading : List (Read ι)) (reads : List (ι × Reads)) : Prop where
  count : ∀ id, (Assoc.get id reads).elim 0 Reads.count = reading.countP (fun r => r.id = id)
  version : ∀ r ∈ reading, ∀ e, Assoc.get r.id reads = some e → r.version ≤ e.version
  current : ∀ r ∈ reading, ∀ e, Assoc.get r.id reads = some e → e.version = r.version →
    ∀ s, seen r s → Agree s current r

namespace Followed

variable {seen : Read ι → Store ι ρ → Prop} {current : Store ι ρ} {reading : List (Read ι)}
variable {r : Read ι} {reads : List (ι × Reads)}

theorem mem (h : Followed seen current reading reads) (hr : r ∈ reading) :
    ∃ e, Assoc.get r.id reads = some e ∧ 0 < e.count := by
  have hpos : 0 < reading.countP (fun r' => r'.id = r.id) :=
    countP_pos_iff.mpr ⟨r, hr, by simp⟩
  have hcount := h.count r.id
  cases he : Assoc.get r.id reads with
  | none =>
    rw [he] at hcount
    change 0 = _ at hcount
    omega
  | some e =>
    rw [he] at hcount
    change e.count = _ at hcount
    exact ⟨e, rfl, by omega⟩

variable {c : CachedStorage ι ρ}

theorem wrote (h : Followed seen current reading c.reads) {id : ι} {current' : Store ι ρ}
    (hc : ∀ r : Read ι, id ≠ r.id → Agree current current' r) :
    Followed seen current' reading (c.wrote id).reads := by
  cases he : Assoc.get id c.reads with
  | none =>
    have hw : c.wrote id = c := by simp only [CachedStorage.wrote, he]
    rw [hw]
    refine ⟨h.count, h.version, ?_⟩
    intro r hr e hre hv s hs
    have hne : id ≠ r.id := by
      intro hid
      rw [← hid, he] at hre
      cases hre
    exact (h.current r hr e hre hv s hs).trans (hc r hne)
  | some e =>
    have hw : (c.wrote id).reads = Assoc.set id { e with version := e.version + 1 } c.reads := by
      simp only [CachedStorage.wrote, he]
    rw [hw]
    refine ⟨?_, ?_, ?_⟩
    · intro x
      rw [← h.count x, Assoc.get_set]
      split_ifs with hx
      · rw [← hx, he]
        rfl
      · rfl
    · intro r hr e' hre
      rw [Assoc.get_set] at hre
      split_ifs at hre with hid
      · cases hre
        exact Nat.le_succ_of_le (h.version r hr e (hid ▸ he))
      · exact h.version r hr e' hre
    · intro r hr e' hre hv s hs
      rw [Assoc.get_set] at hre
      split_ifs at hre with hid
      · cases hre
        have hle := h.version r hr e (hid ▸ he)
        change e.version + 1 = r.version at hv
        omega
      · exact (h.current r hr e' hre hv s hs).trans (hc r hid)

theorem beginRead (h : Followed seen current reading c.reads) (kind : Kind) (id : ι) (start : ℕ)
    (hs : ∀ version s, seen ⟨kind, id, version, start⟩ s → s = current) :
    Followed seen current (reading ++ [⟨kind, id, (c.beginRead id).1, start⟩])
      (c.beginRead id).2.reads := by
  have hcount : ∀ x, (Assoc.get x (c.beginRead id).2.reads).elim 0 Reads.count =
      (Assoc.get x c.reads).elim 0 Reads.count + if id = x then 1 else 0 := by
    intro x
    simp only [CachedStorage.beginRead, Assoc.get_set]
    split_ifs with hx
    · subst hx
      cases Assoc.get id c.reads <;> rfl
    · rfl
  have hversion : ∀ r ∈ reading, ∀ e, Assoc.get r.id (c.beginRead id).2.reads = some e →
      ∃ e', Assoc.get r.id c.reads = some e' ∧ e'.version = e.version := by
    intro r hr e he
    obtain ⟨e', he', -⟩ := h.mem hr
    refine ⟨e', he', ?_⟩
    simp only [CachedStorage.beginRead, Assoc.get_set] at he
    split_ifs at he with hid
    · rw [hid, he'] at he
      cases he
      rfl
    · rw [he'] at he
      cases he
      rfl
  have hself : ∀ e, Assoc.get id (c.beginRead id).2.reads = some e →
      e.version = (c.beginRead id).1 := by
    intro e he
    simp only [CachedStorage.beginRead, Assoc.get_set_self] at he
    cases he
    rfl
  refine ⟨?_, ?_, ?_⟩
  · intro x
    rw [hcount, h.count x, countP_append, countP_singleton]
    simp
  · intro r hr e he
    rcases mem_append.mp hr with hr | hr
    · obtain ⟨e', he', hv⟩ := hversion r hr e he
      rw [← hv]
      exact h.version r hr e' he'
    · cases mem_singleton.mp hr
      exact le_of_eq (hself e he).symm
  · intro r hr e he hv s hseen
    rcases mem_append.mp hr with hr | hr
    · obtain ⟨e', he', hv'⟩ := hversion r hr e he
      exact h.current r hr e' he' (hv'.trans hv) s hseen
    · cases mem_singleton.mp hr
      rw [hs _ s hseen]
      exact Agree.refl _ _

theorem endRead {c c' : CachedStorage ι ρ} (h : Followed seen current reading c.reads) {i : ℕ}
    {version : ℕ} (hi : reading[i]? = some r) (hc : c.endRead r.id = some (version, c')) :
    Followed seen current (reading.eraseIdx i) c'.reads := by
  obtain ⟨hlt, hget⟩ := List.getElem?_eq_some_iff.mp hi
  have hmem : r ∈ reading := mem_of_getElem? hi
  have hperm : (r :: reading.eraseIdx i).Perm reading := by
    rw [← hget]
    exact getElem_cons_eraseIdx_perm hlt
  obtain ⟨e, he, hpos⟩ := h.mem hmem
  have hreads : c'.reads =
      if e.count - 1 = 0 then Assoc.erase r.id c.reads
      else Assoc.set r.id { e with count := e.count - 1 } c.reads := by
    simp only [CachedStorage.endRead, he, map_some, Option.some.injEq] at hc
    cases hc
    rfl
  have hcount : ∀ x, (Assoc.get x c'.reads).elim 0 Reads.count + (if r.id = x then 1 else 0) =
      (Assoc.get x c.reads).elim 0 Reads.count := by
    intro x
    rw [hreads]
    by_cases hx : r.id = x
    · subst hx
      rw [he, if_pos rfl]
      by_cases hz : e.count - 1 = 0
      · rw [if_pos hz, Assoc.get_erase_self]
        change 0 + 1 = e.count
        omega
      · rw [if_neg hz, Assoc.get_set_self]
        change e.count - 1 + 1 = e.count
        omega
    · rw [if_neg hx]
      split_ifs <;> simp [Assoc.get_erase_ne hx, Assoc.get_set_ne hx]
  have hversion : ∀ x e', Assoc.get x c'.reads = some e' →
      ∃ e₀, Assoc.get x c.reads = some e₀ ∧ e₀.version = e'.version := by
    intro x e' he'
    rw [hreads] at he'
    by_cases hx : r.id = x
    · subst hx
      split_ifs at he' with hz
      · rw [Assoc.get_erase_self] at he'
        cases he'
      · rw [Assoc.get_set_self] at he'
        cases he'
        exact ⟨e, he, rfl⟩
    · refine ⟨e', ?_, rfl⟩
      split_ifs at he' with hz
      · rwa [Assoc.get_erase_ne hx] at he'
      · rwa [Assoc.get_set_ne hx] at he'
  have hsub : ∀ r' ∈ reading.eraseIdx i, r' ∈ reading :=
    fun r' hr' => hperm.subset (mem_cons_of_mem _ hr')
  refine ⟨?_, ?_, ?_⟩
  · intro x
    have hx := hcount x
    rw [h.count x, ← hperm.countP_eq, countP_cons] at hx
    simpa using hx
  · intro r' hr' e' he'
    obtain ⟨e₀, he₀, hv⟩ := hversion r'.id e' he'
    rw [← hv]
    exact h.version r' (hsub r' hr') e₀ he₀
  · intro r' hr' e' he' hv s hseen
    obtain ⟨e₀, he₀, hv₀⟩ := hversion r'.id e' he'
    exact h.current r' (hsub r' hr') e₀ he₀ (hv₀.trans hv) s hseen

theorem of_seen (h : Followed seen current reading reads) {seen' : Read ι → Store ι ρ → Prop}
    (hs : ∀ r ∈ reading, ∀ s, seen' r s → seen r s ∨ s = current) :
    Followed seen' current reading reads := by
  refine ⟨h.count, h.version, ?_⟩
  intro r hr e he hv s hseen
  cases hs r hr s hseen with
  | inl hseen => exact h.current r hr e he hv s hseen
  | inr heq =>
    rw [heq]
    exact Agree.refl _ _

end Followed

/-! ### The invariant -/

/-- What Storage may answer to a read: the record as of a published state since its start. -/
def Seen (log : List (List (StorageWrite ι ρ))) (r : Read ι) (s : Store ι ρ) : Prop :=
  ∃ n, r.start ≤ n ∧ n ≤ log.length ∧ s = store.after (log.take n)

/-- The tables between two writes of a batch: `current` is what was published so far, `written`
the part of it written through the cache. -/
structure Holds (log : List (List (StorageWrite ι ρ))) (current written : Store ι ρ)
    (reading : List (Read ι)) (c : CachedStorage ι ρ) : Prop where
  conversations : ∀ id r, c.conversations.peek id = some r → current.conversations id = some r
  submissions : ∀ id r, c.submissions.peek id = some r → current.submissions id = some r
  tables : c.toTaskTables.Consistent current.tasks written.tasks
  followed : Followed (Seen store log) current reading c.reads
  started : ∀ r ∈ reading, r.start ≤ log.length

variable {store} {log : List (List (StorageWrite ι ρ))} {current written : Store ι ρ}
  {reading : List (Read ι)} {c : CachedStorage ι ρ}

namespace Holds

theorem followed_write (h : Holds store log current written reading c) {w : StorageWrite ι ρ}
    {id : ι} (hw : w.id? = some id) :
    Followed (Seen store log) (current.write w) reading (c.wrote id).reads := by
  apply h.followed.wrote
  intro r hr
  apply agree_write
  rw [hw]
  exact fun he => hr (Option.some.inj he)

theorem publishedWrite (h : Holds store log current written reading c) (w : StorageWrite ι ρ) :
    ∃ c', c.publishedWrite w = some c' ∧
      Holds store log (current.write w) (written.write w) reading c' := by
  cases w with
  | conversation v =>
    refine ⟨_, rfl, ?_, ?_, ?_, h.followed_write rfl, h.started⟩
    · intro id r hr
      rw [CachedStorage.wrote_conversations] at hr
      obtain ⟨hid, hv⟩ | ⟨hne, hr⟩ := Lru.peek_set hr
      · subst hv hid
        simp [Store.write]
      · simpa [Store.write, update_of_ne (Ne.symm hne)] using h.conversations id r hr
    · rw [CachedStorage.wrote_submissions]
      exact h.submissions
    · rw [CachedStorage.wrote_toTaskTables]
      exact h.tables
  | task v =>
    obtain ⟨t, ht, hc⟩ := TaskTables.followWait_consistent h.tables v
    refine ⟨{ c.wrote v.id with toTaskTables := t.keepTask v }, ?_, ?_, ?_, ?_,
      h.followed_write rfl, h.started⟩
    · simp only [CachedStorage.publishedWrite, CachedStorage.wrote_toTaskTables, ht,
        map_some]
    · rw [CachedStorage.wrote_conversations]
      exact h.conversations
    · rw [CachedStorage.wrote_submissions]
      exact h.submissions
    · apply TaskTables.keepTask_consistent hc v
      · exact update_self ..
      · intro w hw
        exact Option.some.inj (hw.symm.trans (update_self ..))
      · intro id hid
        exact ⟨update_of_ne (Ne.symm hid) .., update_of_ne (Ne.symm hid) ..⟩
  | submission v =>
    refine ⟨_, rfl, ?_, ?_, ?_, h.followed_write rfl, h.started⟩
    · rw [CachedStorage.wrote_conversations]
      exact h.conversations
    · intro id r hr
      rw [CachedStorage.wrote_submissions] at hr
      obtain ⟨hid, hv⟩ | ⟨hne, hr⟩ := Lru.peek_set hr
      · subst hv hid
        simp [Store.write]
      · simpa [Store.write, update_of_ne (Ne.symm hne)] using h.submissions id r hr
    · rw [CachedStorage.wrote_toTaskTables]
      exact h.tables
  | other => exact ⟨c, rfl, h⟩

theorem published (h : Holds store log current written reading c)
    (writes : List (StorageWrite ι ρ)) :
    ∃ c', c.published writes = some c' ∧
      Holds store log (current.publish writes) (written.publish writes) reading c' := by
  induction writes generalizing current written c with
  | nil => exact ⟨c, rfl, h⟩
  | cons w writes ih =>
    obtain ⟨c₁, h₁, hc₁⟩ := h.publishedWrite w
    obtain ⟨c', h', hc'⟩ := ih hc₁
    refine ⟨c', ?_, hc'⟩
    unfold CachedStorage.published at h' ⊢
    rw [foldlM_cons, h₁]
    exact h'

theorem of_conversation (h : Holds store log current written reading c) (id : ι) :
    Holds store log current written reading (c.conversation id).2 :=
  { h with
    conversations := fun x r hr =>
      h.conversations x r (by rwa [← Lru.peek_get c.conversations id]) }

theorem of_submission (h : Holds store log current written reading c) (id : ι) :
    Holds store log current written reading (c.submission id).2 :=
  { h with
    submissions := fun x r hr => h.submissions x r (by rwa [← Lru.peek_get c.submissions id]) }

theorem of_task (h : Holds store log current written reading c) (id : ι) :
    Holds store log current written reading (c.task id).2 := by
  unfold CachedStorage.task
  split
  · exact h
  · split
    · exact h
    · refine { h with tables := ⟨h.tables.nodup, fun x => ?_⟩ }
      simpa only [Lru.peek_get] using h.tables.coherent x

theorem beginRead (h : Holds store log current written reading c)
    (hcur : current = store.after log) (kind : Kind) (id : ι) :
    Holds store log current written (reading ++ [⟨kind, id, (c.beginRead id).1, log.length⟩])
      (c.beginRead id).2 := by
  refine { h with followed := ?_, started := ?_ }
  · apply h.followed.beginRead
    rintro version s ⟨n, hle, hn, rfl⟩
    rw [hcur, take_of_length_le hle]
  · intro r hr
    rcases mem_append.mp hr with hr | hr
    · exact h.started r hr
    · cases mem_singleton.mp hr
      exact le_refl _

theorem endRead (h : Holds store log current written reading c) {i version : ℕ} {r : Read ι}
    {c' : CachedStorage ι ρ} (hi : reading[i]? = some r)
    (hc : c.endRead r.id = some (version, c')) :
    Holds store log current written (reading.eraseIdx i) c' := by
  have hf := h.followed.endRead hi hc
  obtain ⟨e, he, -⟩ := h.followed.mem (mem_of_getElem? hi)
  simp only [CachedStorage.endRead, he, map_some, Option.some.injEq] at hc
  cases hc
  exact { h with
    followed := hf
    started := fun r hr => h.started r (mem_of_mem_eraseIdx hr) }

theorem keep (h : Holds store log current written reading c) {found : Store ι ρ} {r : Read ι}
    {version : ℕ} (hfound : version = r.version → Agree found current r) :
    Holds store log current written reading (keep c found r version) := by
  unfold RecordCache.keep
  cases hk : r.kind with
  | conversation =>
    cases hr : found.conversations r.id with
    | none => exact h
    | some record =>
      dsimp only
      split_ifs with hv
      · have hcur : found.conversations r.id = current.conversations r.id := by
          simpa only [Agree, hk] using hfound hv
        rw [hr] at hcur
        refine { h with conversations := ?_ }
        intro id x hx
        obtain ⟨hid, hv⟩ | ⟨-, hx⟩ := Lru.peek_set hx
        · rw [← hid, ← hv, hcur]
        · exact h.conversations id x hx
      · exact h
  | task =>
    cases hr : found.tasks r.id with
    | none => exact h
    | some record =>
      dsimp only
      split_ifs with hv
      · have hcur : found.tasks r.id = current.tasks r.id := by
          simpa only [Agree, hk] using hfound hv
        have hid : record.id = r.id := found.task_id r.id record hr
        have hlatest : current.tasks record.id = some record := by rw [hid, ← hcur, hr]
        refine { h with tables := ?_ }
        apply TaskTables.keepTask_consistent h.tables record hlatest
        · intro w hw
          have hw' := (h.tables.coherent record.id).written_latest w hw
          rw [hlatest] at hw'
          exact (Option.some.inj hw').symm
        · exact fun _ _ => ⟨rfl, rfl⟩
      · exact h

end Holds

def Invariant (store : Store ι ρ) (s : State ι ρ) : Prop :=
  Holds store s.log (s.current store) s.written s.reading s.cache

theorem invariant_init : Invariant store
    { cache := CachedStorage.empty, log := [], reading := [] } where
  conversations _ _ h := by cases h
  submissions _ _ h := by cases h
  tables := ⟨nodup_nil, fun _ =>
    { written_latest := fun _ h => (by cases h)
      live_latest := fun _ h => (by cases h)
      awaited_latest := fun _ _ _ h => (by cases h)
      ended_latest := fun _ _ h => (by cases h)
      exclusive := fun _ _ => rfl
      positive := fun _ h => (by cases h)
      count := rfl
      kept := fun _ h => (by cases h) }⟩
  followed := ⟨fun _ => rfl, fun _ h => (by cases h), fun _ h => (by cases h)⟩
  started _ h := by cases h

variable {s : State ι ρ}

theorem invariant_call {cache : CachedStorage ι ρ}
    (hc : Holds store s.log (s.current store) s.written s.reading cache) (kind : Kind) (id : ι)
    (served : Bool) : Invariant store (s.call kind id served cache) := by
  cases served with
  | true => exact hc
  | false => exact hc.beginRead rfl kind id

theorem invariant_step {s' : State ι ρ} {e : Event ι ρ} (h : Invariant store s)
    (hs : Step store s e s') : Invariant store s' := by
  cases hs with
  | published writes hc =>
    obtain ⟨c', hc', hh⟩ := Holds.published h writes
    rw [hc] at hc'
    cases hc'
    unfold Invariant State.current State.written
    rw [Store.after_append, Store.after_append]
    refine { hh with followed := ?_, started := ?_ }
    · apply hh.followed.of_seen
      rintro r - x ⟨n, hstart, hn, rfl⟩
      by_cases hle : n ≤ s.log.length
      · exact .inl ⟨n, hstart, hle, by rw [take_append_of_le_length hle]⟩
      · have hlen : (s.log ++ [writes]).length ≤ n := by
          rw [length_append, length_singleton]
          omega
        rw [take_of_length_le hlen, Store.after_append]
        exact .inr rfl
    · intro r hr
      have hle := hh.started r hr
      rw [length_append]
      omega
  | conversation id => exact invariant_call (Holds.of_conversation h id) ..
  | task id => exact invariant_call (Holds.of_task h id) ..
  | submission id => exact Holds.of_submission h id
  | resolved i n hi hstart hn hc =>
    apply (Holds.endRead h hi hc).keep
    intro hv
    have hmem := mem_of_getElem? hi
    obtain ⟨e, he, -⟩ := h.followed.mem hmem
    simp only [CachedStorage.endRead, he, map_some, Option.some.injEq] at hc
    cases hc
    exact h.followed.current _ hmem e he hv _ ⟨n, hstart, hn, rfl⟩
  | failed i hi hc => exact Holds.endRead h hi hc

theorem invariant_of_reachable (h : (system store).Reachable s) : Invariant store s := by
  apply h.invariant
  · rintro s rfl
    exact invariant_init
  · exact fun s e s' hI _ hs => invariant_step hI hs

theorem served_task (h : Invariant store s) {id : ι} {r : TaskRecord ι ρ}
    (hr : (s.cache.task id).1 = some r) : (s.current store).tasks id = some r := by
  have hs := h.tables.coherent id
  unfold CachedStorage.task at hr
  cases hl : Assoc.get id s.cache.liveTasks with
  | some live =>
    rw [hl] at hr hs
    exact hs.live_latest r hr
  | none =>
    rw [hl] at hr hs
    cases ha : (Assoc.get id s.cache.awaited).bind Awaited.record with
    | some record =>
      rw [ha] at hr
      obtain ⟨a, ha', hrec⟩ := bind_eq_some_iff.mp ha
      exact hs.awaited_latest rfl a r ha' (hrec.trans hr)
    | none =>
      rw [ha] at hr
      exact hs.ended_latest rfl r ((Lru.get_fst _ _).symm.trans hr)

/-- In every reachable state what the tables serve is the record of the published state, a batch
is applied without a missing entry, each awaited count is the number of tracked waits that name
the task, and every live task written through the cache is in the live table. -/
theorem cached_storage_coherent (store : Store ι ρ) (s : State ι ρ)
    (h : (system store).Reachable s) :
    (∀ id r, (s.cache.conversation id).1 = some r → (s.current store).conversations id = some r) ∧
    (∀ id r, (s.cache.task id).1 = some r → (s.current store).tasks id = some r) ∧
    (∀ id r, (s.cache.submission id).1 = some r → (s.current store).submissions id = some r) ∧
    (∀ id, (Assoc.get id s.cache.awaited).elim 0 Awaited.count =
      TaskTables.occurrences s.cache.waits id) ∧
    (∀ writes, (s.cache.published writes).isSome) ∧
    (∀ id r, s.written.tasks id = some r → r.state ≠ .terminal →
      Assoc.get id s.cache.liveTasks = some r) := by
  have hI := invariant_of_reachable h
  refine ⟨?_, ?_, ?_, ?_, ?_, ?_⟩
  · intro id r hr
    exact hI.conversations id r ((Lru.get_fst _ _).symm.trans hr)
  · exact fun id r hr => served_task hI hr
  · intro id r hr
    exact hI.submissions id r ((Lru.get_fst _ _).symm.trans hr)
  · exact fun id => (hI.tables.coherent id).count
  · intro writes
    obtain ⟨c', hc', -⟩ := Holds.published hI writes
    rw [hc']
    rfl
  · exact fun id => (hI.tables.coherent id).kept

/-- A task waits twice on an ended one: it is counted twice, and served from the awaited table. -/
theorem cached_storage_coherent_waiting :
    ∃ s : State ℕ Unit, (system Store.empty).Reachable s ∧
      TaskTables.occurrences s.cache.waits 2 = 2 ∧
      (Assoc.get 2 s.cache.awaited).elim 0 Awaited.count = 2 ∧
      (s.current Store.empty).tasks 2 = some ⟨2, .terminal, ()⟩ := by
  have hrun : Step Store.empty
      { cache := (CachedStorage.empty : CachedStorage ℕ Unit), log := [], reading := [] }
      (.published [.task ⟨2, .terminal, ()⟩, .task ⟨1, .waiting [2, 2], ()⟩]) _ :=
    Step.published _ rfl
  have hreach : (system Store.empty).Reachable _ :=
    ⟨_, rfl, (.refl _ : System.Steps _ _ _ _).tail hrun trivial⟩
  obtain ⟨-, htask, -, hcount, -⟩ := cached_storage_coherent Store.empty _ hreach
  have htwo := hcount 2
  exact ⟨_, hreach, rfl, htwo.trans rfl, htask 2 _ rfl⟩

end KnightCode.RecordCache
