import KnightCode.Durable.CachedStorage

/-!
# The three task tables

`Shows` is what the tables may hold of one task: the record served is the latest one, a stale record
may only stay behind a live one, and an entry of `awaited` counts the waits that name the task.
Every operation on the tables rewrites one task and may evict others from the bounded table.
-/

namespace KnightCode.RecordCache

open List

variable {ι ρ : Type*}

/-- One task in the tables: its latest record, the last one written through the cache, how many
waits name it, and its live, awaited and ended entries. -/
structure Shows (latest written : Option (TaskRecord ι ρ)) (demand : ℕ)
    (live : Option (TaskRecord ι ρ)) (awaited : Option (Awaited ι ρ))
    (ended : Option (TaskRecord ι ρ)) : Prop where
  written_latest : ∀ r, written = some r → latest = some r
  live_latest : ∀ r, live = some r → latest = some r
  awaited_latest : live = none → ∀ a r, awaited = some a → a.record = some r → latest = some r
  ended_latest : live = none → ∀ r, ended = some r → latest = some r
  exclusive : ∀ a, awaited = some a → ended = none
  positive : ∀ a, awaited = some a → 0 < a.count
  count : awaited.elim 0 Awaited.count = demand
  kept : ∀ r, written = some r → r.state ≠ .terminal → live = some r

namespace Shows

variable {latest written live ended : Option (TaskRecord ι ρ)} {demand : ℕ}
  {awaited : Option (Awaited ι ρ)}
variable {a : Awaited ι ρ} {r : TaskRecord ι ρ} {written' : Option (TaskRecord ι ρ)}

theorem evict (h : Shows latest written demand live awaited ended) :
    Shows latest written demand live awaited none :=
  { h with
    ended_latest := fun _ _ hr => by cases hr
    exclusive := fun _ _ => rfl }

theorem recount (h : Shows latest written demand live (some a) ended) {count demand' : ℕ}
    (hpos : 0 < count) (hcount : count = demand') :
    Shows latest written demand' live (some { a with count := count }) ended := by
  refine { h with
    awaited_latest := ?_, exclusive := fun _ _ => h.exclusive a rfl, positive := ?_
    count := hcount }
  · intro hl a' r ha' hr
    cases ha'
    exact h.awaited_latest hl a r rfl hr
  · intro a' ha'
    cases ha'
    exact hpos

theorem await_some (h : Shows latest written demand live (some a) ended) :
    Shows latest written (demand + 1) live (some { a with count := a.count + 1 }) ended :=
  h.recount (Nat.succ_pos _) (congrArg (· + 1) h.count)

theorem await_none (h : Shows latest written demand live none ended) :
    Shows latest written (demand + 1) live (some { count := 1, record := ended }) none := by
  have hcount : 0 = demand := h.count
  refine { h with
    awaited_latest := ?_, ended_latest := fun _ _ hr => (by cases hr),
    exclusive := fun _ _ => rfl, positive := ?_, count := ?_ }
  · intro hl a r ha hr
    cases ha
    exact h.ended_latest hl r hr
  · intro a ha
    cases ha
    exact Nat.one_pos
  · simp [← hcount]

theorem release_more (h : Shows latest written (demand + 1) live (some a) ended)
    (hc : 0 < a.count - 1) :
    Shows latest written demand live (some { a with count := a.count - 1 }) ended :=
  h.recount hc (Nat.sub_eq_of_eq_add h.count)

variable {ended' : Option (TaskRecord ι ρ)}

theorem release_last (h : Shows latest written (demand + 1) live (some a) ended)
    (hc : ¬ 0 < a.count - 1) (he : ∀ r, ended' = some r → a.record = some r) :
    Shows latest written demand live none ended' := by
  have hcount : a.count = demand + 1 := h.count
  refine { h with
    awaited_latest := fun _ _ _ ha => (by cases ha), ended_latest := ?_,
    exclusive := fun _ ha => (by cases ha), positive := fun _ ha => (by cases ha), count := ?_ }
  · intro hl r hr
    exact h.awaited_latest hl a r rfl (he r hr)
  · change 0 = demand
    omega

theorem keep_live (h : Shows latest written demand live awaited ended)
    (hw : ∀ w, written' = some w → w = r) :
    Shows (some r) written' demand (some r) awaited none where
  written_latest w hw' := by rw [hw w hw']
  live_latest _ hr := hr
  awaited_latest hl := by cases hl
  ended_latest hl := by cases hl
  exclusive _ _ := rfl
  positive := h.positive
  count := h.count
  kept w hw' _ := by rw [hw w hw']

theorem keep_awaited (h : Shows latest written demand live (some a) ended)
    (ht : r.state = .terminal) (hw : ∀ w, written' = some w → w = r) :
    Shows (some r) written' demand none (some { a with record := some r }) ended where
  written_latest w hw' := by rw [hw w hw']
  live_latest _ hr := by cases hr
  awaited_latest _ a' r' ha' hr' := by
    cases ha'
    exact hr'
  ended_latest _ r' hr' := by
    rw [h.exclusive a rfl] at hr'
    cases hr'
  exclusive _ _ := h.exclusive a rfl
  positive a' ha' := by
    cases ha'
    exact h.positive a rfl
  count := h.count
  kept w hw' hs := absurd (by rw [hw w hw', ht]) hs

theorem keep_ended (h : Shows latest written demand live none ended) (ht : r.state = .terminal)
    (hw : ∀ w, written' = some w → w = r) (he : ∀ e, ended' = some e → e = r) :
    Shows (some r) written' demand none none ended' where
  written_latest w hw' := by rw [hw w hw']
  live_latest _ hr := by cases hr
  awaited_latest _ _ _ ha := by cases ha
  ended_latest _ e he' := by rw [he e he']
  exclusive _ ha := by cases ha
  positive _ ha := by cases ha
  count := h.count
  kept w hw' hs := absurd (by rw [hw w hw', ht]) hs

end Shows

variable [DecidableEq ι]

namespace TaskTables
variable {id : ι}

def Coherent (latest written : ι → Option (TaskRecord ι ρ)) (demand : ι → ℕ)
    (c : TaskTables ι ρ) : Prop :=
  ∀ id, Shows (latest id) (written id) (demand id) (Assoc.get id c.liveTasks)
    (Assoc.get id c.awaited) (c.tasks.peek id)

variable {latest written : ι → Option (TaskRecord ι ρ)} {demand : ι → ℕ} {c : TaskTables ι ρ}

theorem Shows.of_peek_set {l w : Option (TaskRecord ι ρ)} {n : ℕ} {id x : ι}
    {live : Option (TaskRecord ι ρ)} {awaited : Option (Awaited ι ρ)} {v : TaskRecord ι ρ}
    {tasks : Lru ι (TaskRecord ι ρ) 256} (hx : id ≠ x)
    (h : Shows l w n live awaited (tasks.peek x)) :
    Shows l w n live awaited ((tasks.set id v).peek x) := by
  cases hp : (tasks.set id v).peek x with
  | none => exact h.evict
  | some r =>
    obtain ⟨hid, -⟩ | ⟨-, hr⟩ := Lru.peek_set hp
    · exact absurd hid hx
    · rwa [hr] at h

theorem await_coherent (h : Coherent latest written demand c) (id : ι) :
    Coherent latest written (fun x => demand x + if id = x then 1 else 0) (c.await id) := by
  intro x
  have hs := h x
  unfold await
  by_cases hx : id = x
  · subst hx
    cases ha : Assoc.get id c.awaited with
    | some a =>
      rw [ha] at hs
      simpa using hs.await_some
    | none =>
      rw [ha] at hs
      simpa [Lru.peek_delete, Lru.get_fst] using hs.await_none
  · cases ha : Assoc.get id c.awaited with
    | some a => simpa [hx, Assoc.get_set] using hs
    | none => simpa [hx, Assoc.get_set, Lru.peek_delete, Lru.peek_get] using hs

theorem releaseOne_coherent
    (h : Coherent latest written (fun x => demand x + if id = x then 1 else 0) c) :
    ∃ c', c.releaseOne id = some c' ∧ Coherent latest written demand c' ∧ c'.waits = c.waits := by
  have hid := h id
  simp only [if_pos] at hid
  cases ha : Assoc.get id c.awaited with
  | none =>
    rw [ha] at hid
    exact absurd hid.count (Nat.succ_ne_zero _).symm
  | some a =>
    rw [ha] at hid
    by_cases hc : 0 < a.count - 1
    · have hrun : c.releaseOne id = some { c with
          awaited := Assoc.set id { a with count := a.count - 1 } c.awaited } := by
        simp only [releaseOne, ha, if_pos hc]
      refine ⟨_, hrun, ?_, rfl⟩
      intro x
      by_cases hx : id = x
      · subst hx
        simpa using hid.release_more hc
      · simpa [hx, Assoc.get_set] using h x
    · cases hr : a.record with
      | none =>
        have hrun : c.releaseOne id = some { c with awaited := Assoc.erase id c.awaited } := by
          simp only [releaseOne, ha, if_neg hc, hr]
        refine ⟨_, hrun, ?_, rfl⟩
        intro x
        by_cases hx : id = x
        · subst hx
          have he : c.tasks.peek id = none := hid.exclusive a rfl
          simpa [he] using hid.release_last hc (fun r (h : none = some r) => by cases h)
        · simpa [hx, Assoc.get_erase] using h x
      | some r =>
        have hrun : c.releaseOne id = some { c with
            awaited := Assoc.erase id c.awaited, tasks := c.tasks.set id r } := by
          simp only [releaseOne, ha, if_neg hc, hr]
        refine ⟨_, hrun, ?_, rfl⟩
        intro x
        by_cases hx : id = x
        · subst hx
          simp only [Assoc.get_erase_self]
          apply hid.release_last hc
          intro r' hr'
          obtain ⟨-, hv⟩ | ⟨hne, -⟩ := Lru.peek_set hr'
          · rw [hr, hv]
          · exact absurd rfl hne
        · have hs := h x
          simp only [if_neg hx, Nat.add_zero] at hs
          simp only [Assoc.get_erase_ne hx]
          exact Shows.of_peek_set hx hs

theorem awaits_coherent (h : Coherent latest written demand c) (on : List ι) :
    Coherent latest written (fun x => demand x + on.count x) (on.foldl await c) := by
  induction on generalizing demand c with
  | nil => exact h
  | cons id on ih =>
    have hc := ih (await_coherent h id)
    intro x
    have hx := hc x
    simp only [foldl_cons, count_cons, beq_iff_eq, Nat.add_assoc,
      Nat.add_comm (on.count x)] at hx ⊢
    exact hx

theorem release_coherent {on : List ι}
    (h : Coherent latest written (fun x => demand x + on.count x) c) :
    ∃ c', c.release on = some c' ∧ Coherent latest written demand c' ∧ c'.waits = c.waits := by
  induction on generalizing c with
  | nil => exact ⟨c, rfl, h, rfl⟩
  | cons id on ih =>
    have hone : Coherent latest written
        (fun x => (demand x + on.count x) + if id = x then 1 else 0) c := by
      intro x
      have hx := h x
      simp only [count_cons, beq_iff_eq, ← Nat.add_assoc] at hx
      exact hx
    obtain ⟨c₁, h₁, hc₁, hw₁⟩ := releaseOne_coherent hone
    obtain ⟨c', h', hc', hw'⟩ := ih hc₁
    refine ⟨c', ?_, hc', hw'.trans hw₁⟩
    unfold release at h' ⊢
    rw [foldlM_cons, h₁]
    exact h'

/-- How often the tracked waits name a task. -/
def occurrences (waits : List (ι × Wait ι)) (id : ι) : ℕ :=
  Assoc.total (fun wait => wait.on.count id) waits

/-- The tables are coherent, with the waits they track as the demand. -/
structure Consistent (latest written : ι → Option (TaskRecord ι ρ)) (c : TaskTables ι ρ) :
    Prop where
  nodup : (Assoc.keys c.waits).Nodup
  coherent : Coherent latest written (occurrences c.waits) c

theorem Consistent.release_wait (h : Consistent latest written c) {wait : Wait ι}
    (hwait : Assoc.get id c.waits = some wait) (waits : List (ι × Wait ι)) :
    ∃ c', release { c with waits } wait.on = some c' ∧ c'.waits = waits ∧
      Coherent latest written (occurrences (Assoc.erase id c.waits)) c' := by
  have hd : ∀ x, occurrences (Assoc.erase id c.waits) x + wait.on.count x =
      occurrences c.waits x :=
    fun x => Assoc.total_erase (fun w => w.on.count x) h.nodup hwait
  have hc : Coherent latest written
      (fun x => occurrences (Assoc.erase id c.waits) x + wait.on.count x)
      { c with waits } := by
    intro x
    have hx := h.coherent x
    rw [← hd x] at hx
    exact hx
  obtain ⟨c', h', hc', hw'⟩ := release_coherent hc
  exact ⟨c', h', hw', hc'⟩

theorem waits_awaits (c : TaskTables ι ρ) (on : List ι) : (on.foldl await c).waits = c.waits := by
  induction on generalizing c with
  | nil => rfl
  | cons id on ih =>
    rw [foldl_cons, ih]
    unfold await
    split <;> rfl

theorem wait_consistent (on : List ι) (hn : (Assoc.keys c.waits).Nodup)
    (h : Coherent latest written (occurrences (Assoc.erase id c.waits)) c) :
    Consistent latest written
      (on.foldl await { c with waits := Assoc.set id { on, left := false } c.waits }) := by
  have hd : ∀ x, occurrences (Assoc.set id { on, left := false } c.waits) x =
      occurrences (Assoc.erase id c.waits) x + on.count x := by
    intro x
    cases hw : Assoc.get id c.waits with
    | none =>
      rw [Assoc.erase_of_not_mem ((Assoc.get_eq_none_iff id c.waits).mp hw)]
      exact Assoc.total_set_of_none _ _ hw
    | some w =>
      have hs := Assoc.total_set_of_some (fun w => w.on.count x) { on, left := false } hw
      have he := Assoc.total_erase (fun w => w.on.count x) hn hw
      unfold occurrences
      dsimp only at hs he ⊢
      omega
  refine ⟨?_, ?_⟩
  · rw [waits_awaits]
    exact Assoc.nodup_keys_set hn
  · rw [waits_awaits]
    have hc : Coherent latest written (occurrences (Assoc.erase id c.waits))
        { c with waits := Assoc.set id { on, left := false } c.waits } := h
    simpa only [← hd] using awaits_coherent hc on

theorem followWait_of_not_waiting (c : TaskTables ι ρ) {record : TaskRecord ι ρ}
    (hs : ∀ on, record.state ≠ .waiting on) :
    c.followWait record =
      match Assoc.get record.id c.waits with
      | none => some c
      | some wait =>
        if wait.left = false ∧ record.state ≠ .terminal then
          some { c with waits := Assoc.set record.id { wait with left := true } c.waits }
        else
          release { c with waits := Assoc.erase record.id c.waits } wait.on := by
  unfold followWait
  cases h : record.state with
  | waiting on => exact absurd h (hs on)
  | _ => rfl

theorem Consistent.left (h : Consistent latest written c) {wait : Wait ι}
    (hwait : Assoc.get id c.waits = some wait) :
    Consistent latest written
      { c with waits := Assoc.set id { wait with left := true } c.waits } := by
  refine ⟨Assoc.nodup_keys_set h.nodup, ?_⟩
  intro x
  have hs := Assoc.total_set_of_some (fun w => w.on.count x) { wait with left := true } hwait
  have hd : occurrences (Assoc.set id { wait with left := true } c.waits) x =
      occurrences c.waits x := Nat.add_right_cancel hs
  rw [hd]
  exact h.coherent x

theorem followWait_consistent (h : Consistent latest written c) (record : TaskRecord ι ρ) :
    ∃ c', c.followWait record = some c' ∧ Consistent latest written c' := by
  by_cases hs : ∃ on, record.state = .waiting on
  · obtain ⟨on, hon⟩ := hs
    cases hw : Assoc.get record.id c.waits with
    | none =>
      refine ⟨_, by simp only [followWait, hw, hon, Option.map_some]; rfl, ?_⟩
      apply wait_consistent on h.nodup
      rw [Assoc.erase_of_not_mem ((Assoc.get_eq_none_iff _ _).mp hw)]
      exact h.coherent
    | some wait =>
      obtain ⟨c', hrun, hwaits, hc'⟩ := h.release_wait hw c.waits
      have hrun' : c.release wait.on = some c' := hrun
      refine ⟨_, by simp only [followWait, hw, hon, hrun', Option.map_some]; rfl, ?_⟩
      rw [← hwaits] at hc'
      apply wait_consistent on _ hc'
      rw [hwaits]
      exact h.nodup
  · push Not at hs
    rw [followWait_of_not_waiting c hs]
    cases hw : Assoc.get record.id c.waits with
    | none => exact ⟨c, rfl, h⟩
    | some wait =>
      dsimp only
      split_ifs with hl
      · exact ⟨_, rfl, h.left hw⟩
      · obtain ⟨c', hrun, hwaits, hc'⟩ := h.release_wait hw (Assoc.erase record.id c.waits)
        refine ⟨c', hrun, ?_, ?_⟩
        · rw [hwaits]
          exact Assoc.nodup_keys_erase h.nodup
        · rw [hwaits]
          exact hc'

theorem keepTask_consistent (h : Consistent latest written c) (v : TaskRecord ι ρ)
    {latest' written' : ι → Option (TaskRecord ι ρ)} (hl : latest' v.id = some v)
    (hw : ∀ w, written' v.id = some w → w = v)
    (ho : ∀ id, v.id ≠ id → latest' id = latest id ∧ written' id = written id) :
    Consistent latest' written' (c.keepTask v) := by
  have hself := h.coherent v.id
  by_cases ht : v.state = .terminal
  · cases ha : Assoc.get v.id c.awaited with
    | some a =>
      have hk : c.keepTask v = { c with
          liveTasks := Assoc.erase v.id c.liveTasks
          awaited := Assoc.set v.id { a with record := some v } c.awaited } := by
        simp only [keepTask, ht, ha]
      rw [hk]
      refine ⟨h.nodup, fun x => ?_⟩
      by_cases hx : v.id = x
      · subst hx
        rw [ha] at hself
        simpa [hl] using hself.keep_awaited ht hw
      · have hs := h.coherent x
        simpa [ho x hx, Assoc.get_erase_ne hx, Assoc.get_set_ne hx] using hs
    | none =>
      have hk : c.keepTask v = { c with
          liveTasks := Assoc.erase v.id c.liveTasks
          tasks := c.tasks.set v.id v } := by
        simp only [keepTask, ht, ha]
      rw [hk]
      refine ⟨h.nodup, fun x => ?_⟩
      by_cases hx : v.id = x
      · subst hx
        rw [ha] at hself
        simp only [hl, ha, Assoc.get_erase_self]
        apply hself.keep_ended ht hw
        intro e he
        obtain ⟨-, hv⟩ | ⟨hne, -⟩ := Lru.peek_set he
        · exact hv.symm
        · exact absurd rfl hne
      · have hs := h.coherent x
        simp only [ho x hx, Assoc.get_erase_ne hx]
        exact Shows.of_peek_set hx hs
  · have hk : c.keepTask v = { c with
        tasks := c.tasks.delete v.id
        liveTasks := Assoc.set v.id v c.liveTasks } := by
      unfold keepTask
      cases hs : v.state with
      | terminal => exact absurd hs ht
      | _ => rfl
    rw [hk]
    refine ⟨h.nodup, fun x => ?_⟩
    by_cases hx : v.id = x
    · subst hx
      simpa [hl, Lru.peek_delete] using hself.keep_live hw
    · have hs := h.coherent x
      simpa [ho x hx, Assoc.get_set_ne hx, Lru.peek_delete, hx] using hs

end TaskTables

end KnightCode.RecordCache
