import KnightCode.Session.Lock

/-!
# A lock that is not lost is held alone

The token on disk is that of the acquisition completed last, and so is the creator of the lock
directory once its acquisition is complete. What a process relies on between a check and the step it
guards is a fact about the completed acquisitions, which stays true as long as none completes
meanwhile.
-/

namespace KnightCode.SessionLock

open List Option

def Own (p since : ℕ) (completed : List Token) : Prop :=
  ∀ token ∈ completed.drop since, token.process = p

variable {token : Token}

theorem Own.concat {p since : ℕ} {completed : List Token} (h : Own p since completed)
    (ht : token.process = p) : Own p since (completed ++ [token]) := by
  intro t hm
  rw [drop_append] at hm
  rcases mem_append.mp hm with hm | hm
  · exact h t hm
  · rw [mem_singleton.mp (mem_of_mem_drop hm)]
    exact ht

def Process.Relies (d : Disk) (p : ℕ) (process : Process) : Prop :=
  match process.pc with
  | .locking _ (.retake entry seen) =>
    seen ≤ d.completed.length ∧
      ∀ e, process.entries[entry]? = some e → Own p e.since (d.completed.take seen)
  | .stamping token _ _ purpose =>
    (token.process = p ∧ token.number < d.next ∧ token ∉ d.completed) ∧
      (∀ dir, d.dir = some dir → dir.creator ≠ token → dir.creator ∉ d.completed) ∧
      ∀ entry seen, purpose = .retake entry seen →
        ∀ e, process.entries[entry]? = some e → Own p e.since d.completed
  | .removing entry _ | .erasing entry =>
    ∀ e, process.entries[entry]? = some e → d.completed.getLast? = some e.token
  | _ => True

/-- Nothing is relied on. -/
def Pc.Free : Pc → Prop
  | .removing .. | .erasing _ | .stamping .. | .locking _ (.retake ..) => False
  | _ => True

/-- An acquisition given out: complete, and alone while its token is on disk. -/
structure Held.Sound (d : Disk) (p : ℕ) (e : Held) : Prop where
  own : e.token.process = p
  known : e.token ∈ d.completed
  alone : d.token = some e.token → Own p e.since d.completed

structure Process.Sound (d : Disk) (p : ℕ) (process : Process) : Prop where
  entries : ∀ e ∈ process.entries, e.Sound d p
  relies : process.Relies d p

structure Disk.Sound (d : Disk) : Prop where
  last : ∀ token, d.token = some token → d.completed.getLast? = some token
  dirLast : ∀ dir, d.dir = some dir → dir.creator ∈ d.completed →
    d.completed.getLast? = some dir.creator
  completedLt : ∀ token ∈ d.completed, token.number < d.next
  creatorLt : ∀ dir, d.dir = some dir → dir.creator.number < d.next

structure World.Inv (w : World) : Prop where
  disk : w.disk.Sound
  processes : ∀ p, (w.processes p).Sound w.disk p
  spares : w.Spares

/-! ### What the other processes see -/

/-- The disk changed, but no acquisition started or completed. -/
structure Disk.Settles (d d' : Disk) : Prop where
  dir : ∀ dir', d'.dir = some dir' → ∃ dir, d.dir = some dir ∧ dir'.creator = dir.creator
  token : d'.token = d.token ∨ d'.token = none
  next : d'.next = d.next
  completed : d'.completed = d.completed

namespace Process

variable {d d' : Disk} {p : ℕ} {process process' : Process}

/-- No acquisition completed, and no token and no directory of a completed acquisition came. -/
theorem Sound.kept (h : process.Sound d p) (hcompleted : d'.completed = d.completed)
    (hnext : d.next ≤ d'.next) (htoken : ∀ token, d'.token = some token → d.token = some token)
    (hdir : ∀ dir', d'.dir = some dir' → dir'.creator ∉ d.completed ∨
      ∃ dir, d.dir = some dir ∧ dir'.creator = dir.creator) : process.Sound d' p := by
  refine ⟨fun e he => ?_, ?_⟩
  · obtain ⟨hown, hknown, halone⟩ := h.entries e he
    rw [← hcompleted] at hknown halone
    exact ⟨hown, hknown, fun ht => halone (htoken _ ht)⟩
  · have hr := h.relies
    unfold Relies at hr ⊢
    rw [hcompleted]
    cases hpc : process.pc with
    | idle | givingBack | guarding | touching | compromised | unlocking | clearing | dead => trivial
    | locking stale purpose =>
      rw [hpc] at hr
      cases purpose with
      | fresh => trivial
      | retake entry seen => exact hr
    | stamping token mtime stale purpose =>
      rw [hpc] at hr
      obtain ⟨⟨hown, hlt, hnew⟩, hdirs, hretake⟩ := hr
      refine ⟨⟨hown, hlt.trans_le hnext, hnew⟩, fun dir' hd' hne => ?_, hretake⟩
      obtain hfree | ⟨dir, heq, hcreator⟩ := hdir dir' hd'
      · exact hfree
      · rw [hcreator] at hne ⊢
        exact hdirs dir heq hne
    | removing entry exit | erasing entry =>
      rw [hpc] at hr
      exact hr

theorem Sound.settles (h : process.Sound d p) (hd : d.Settles d') : process.Sound d' p := by
  refine h.kept hd.completed hd.next.ge (fun token ht => ?_) fun dir' hd' => .inr (hd.dir dir' hd')
  rcases hd.token with heq | heq
  · exact heq ▸ ht
  · rw [heq] at ht
    cases ht

theorem Sound.locked {dir : Dir} (h : process.Sound d p) (hn : dir.creator ∉ d.completed) :
    process.Sound { d with dir := some dir, next := d.next + 1 } p := by
  refine h.kept rfl (Nat.le_succ _) (fun _ ht => ht) fun dir' hd' => .inl ?_
  cases hd'
  exact hn

/-- Another process completed its acquisition, while this one relied on nothing that this
changes. -/
theorem Sound.stamped (h : process.Sound d p) (hne : token.process ≠ p)
    (hcheck : ¬ process.pc.Checked)
    (hstamp : d.dir.map Dir.creator = some token → ¬ process.pc.Stamping) :
    process.Sound { d with token := some token, completed := d.completed ++ [token] } p := by
  refine ⟨?_, ?_⟩
  · intro e he
    refine ⟨(h.entries e he).own, mem_append_left _ (h.entries e he).known, fun ht => ?_⟩
    rw [some.injEq] at ht
    exact absurd (ht ▸ (h.entries e he).own) hne
  · have hr := h.relies
    unfold Relies at hr ⊢
    cases hpc : process.pc with
    | idle | givingBack | guarding | touching | compromised | unlocking | clearing | dead => trivial
    | locking stale purpose =>
      rw [hpc] at hr
      cases purpose with
      | fresh => trivial
      | retake entry seen =>
        obtain ⟨hle, hown⟩ := hr
        refine ⟨?_, ?_⟩
        · rw [length_append]
          exact hle.trans (Nat.le_add_right _ _)
        · intro e he
          rw [take_append_of_le_length hle]
          exact hown e he
    | stamping token' mtime stale purpose =>
      rw [hpc] at hr hcheck hstamp
      obtain ⟨⟨hown, hlt, hnew⟩, hdir, -⟩ := hr
      refine ⟨⟨hown, hlt, ?_⟩, ?_, ?_⟩
      · simp only [mem_append, mem_singleton, not_or]
        refine ⟨hnew, ?_⟩
        rintro rfl
        exact hne hown
      · intro dir hd hcreator
        simp only [mem_append, mem_singleton, not_or]
        refine ⟨hdir dir hd hcreator, ?_⟩
        rintro rfl
        have hd' : d.dir = some dir := hd
        exact hstamp (by rw [hd']; rfl) trivial
      · rintro entry seen rfl
        exact absurd trivial hcheck
    | removing entry exit | erasing entry =>
      rw [hpc] at hcheck
      exact absurd trivial hcheck

/-! ### What a process does on its own -/

theorem mem_change {f : Held → Held} {entry : ℕ} {e : Held}
    (h : e ∈ (process.change entry f).entries) :
    e ∈ process.entries ∨ ∃ e', process.entries[entry]? = some e' ∧ e = f e' := by
  obtain ⟨i, hi⟩ := mem_iff_getElem?.mp h
  rw [change, getElem?_modify] at hi
  cases hg : process.entries[i]? with
  | none =>
    rw [hg] at hi
    cases hi
  | some e' =>
    rw [hg] at hi
    obtain rfl : (if entry = i then f e' else e') = e := some.inj hi
    split
    · rename_i heq
      exact .inr ⟨e', heq ▸ hg, rfl⟩
    · exact .inl (mem_of_getElem? hg)

theorem Relies.of_free (h : process.pc.Free) : process.Relies d p := by
  unfold Relies
  cases hpc : process.pc with
  | idle | givingBack | guarding | touching | compromised | unlocking | clearing | dead => trivial
  | locking stale purpose =>
    cases purpose with
    | fresh => trivial
    | retake entry seen =>
      rw [hpc] at h
      exact h.elim
  | stamping token mtime stale purpose | removing entry exit | erasing entry =>
    rw [hpc] at h
    exact h.elim

structure Moves (process process' : Process) : Prop where
  entries : ∀ {d : Disk} {p : ℕ}, (∀ e ∈ process.entries, e.Sound d p) →
    ∀ e ∈ process'.entries, e.Sound d p
  free : process'.pc.Free

theorem Moves.sound (h : process.Moves process') (hs : process.Sound d p) : process'.Sound d p :=
  ⟨h.entries hs.entries, Relies.of_free h.free⟩

variable (entry : ℕ)

theorem entries_keep {f : Held → Held} (hf : ∀ e, (f e).token = e.token ∧ (f e).since = e.since)
    (h : ∀ e ∈ process.entries, e.Sound d p) :
    ∀ e ∈ (process.change entry f).entries, e.Sound d p := by
  intro e he
  rcases mem_change he with he | ⟨e', he', rfl⟩
  · exact h e he
  · have hs := h e' (mem_of_getElem? he')
    refine ⟨by rw [(hf e').1]; exact hs.own, by rw [(hf e').1]; exact hs.known, ?_⟩
    rw [(hf e').1, (hf e').2]
    exact hs.alone

theorem moves_goTo {pc : Pc} (h : pc.Free) : process.Moves (process.goTo pc) :=
  ⟨fun hs => hs, h⟩

theorem moves_lose (h : process.pc.Free) : process.Moves (process.lose entry) :=
  ⟨fun hs => entries_keep entry (fun _ => ⟨rfl, rfl⟩) hs, h⟩

theorem moves_lose_goTo {entry : ℕ} {pc : Pc} (h : pc.Free) :
    process.Moves ((process.lose entry).goTo pc) :=
  ⟨fun hs => entries_keep entry (fun _ => ⟨rfl, rfl⟩) hs, h⟩

theorem moves_fail (purpose : Purpose) (process : Process) :
    process.Moves (process.fail purpose) := by
  cases purpose with
  | fresh exclusive => exact moves_goTo trivial
  | retake entry seen => exact moves_lose_goTo trivial

theorem moves_compromise (e : Held) (process : Process) :
    process.Moves (process.compromise entry e) := by
  refine ⟨fun hs => entries_keep entry (fun _ => ⟨rfl, rfl⟩) hs, ?_⟩
  unfold compromise goTo
  split <;> trivial

theorem moves_refl (h : process.pc.Free) : process.Moves process :=
  ⟨fun hs => hs, h⟩

theorem moves_check (d : Disk) (h : process.pc.Free) : process.Moves (process.check entry d) := by
  unfold check
  split
  · split
    · exact moves_lose entry h
    · exact moves_refl h
  · exact moves_refl h

theorem moves_acquire (exclusive : Bool) (stale : ℕ) (d : Disk) (h : process.pc.Free) :
    process.Moves (process.acquire exclusive stale d) := by
  simp only [acquire]
  split
  · exact moves_goTo trivial
  · rename_i entry _
    split
    · exact moves_refl h
    · split
      · exact moves_lose_goTo trivial
      · split
        · exact moves_refl h
        · exact ⟨fun hs => entries_keep entry (fun _ => ⟨rfl, rfl⟩) hs, h⟩

theorem moves_release (d : Disk) (h : process.pc.Free) :
    process.Moves (process.release entry d) := by
  have hcounted : ∀ {d : Disk} {p : ℕ}, (∀ e ∈ process.entries, e.Sound d p) →
      ∀ e ∈ (process.change entry (fun e => { e with count := e.count - 1 })).entries,
        e.Sound d p :=
    fun hs => entries_keep entry (fun _ => ⟨rfl, rfl⟩) hs
  simp only [release]
  split
  · exact moves_refl h
  · split
    · exact moves_refl h
    · split
      · exact ⟨hcounted, h⟩
      · split
        · exact ⟨hcounted, h⟩
        · split
          · exact ⟨hcounted, trivial⟩
          · exact ⟨fun hs => entries_keep entry (fun _ => ⟨rfl, rfl⟩) (hcounted hs), h⟩

theorem moves_refresh (d : Disk) (h : process.pc.Free) :
    process.Moves (process.refresh entry d) := by
  unfold refresh
  split
  · exact moves_refl h
  · rename_i e _
    split
    · exact moves_refl h
    · split
      · exact moves_goTo trivial
      · exact moves_compromise entry e process

theorem moves_exit (process : Process) : process.Moves (process.exit entry) := by
  unfold exit
  split
  · exact moves_goTo trivial
  · split
    · exact moves_goTo trivial
    · exact moves_goTo trivial

end Process

theorem Disk.Settles.refl (d : Disk) : d.Settles d :=
  ⟨fun dir h => ⟨dir, h, rfl⟩, .inl rfl, rfl, rfl⟩

theorem Disk.Sound.settles {d d' : Disk} (h : d.Sound) (hd : d.Settles d') : d'.Sound := by
  refine ⟨?_, ?_, ?_, ?_⟩
  · intro token ht
    rw [hd.completed]
    rcases hd.token with heq | heq
    · exact h.last token (heq ▸ ht)
    · rw [heq] at ht
      cases ht
  · intro dir' hd' hm
    obtain ⟨dir, heq, hcreator⟩ := hd.dir dir' hd'
    rw [hd.completed, hcreator] at hm ⊢
    exact h.dirLast dir heq hm
  · rw [hd.completed, hd.next]
    exact h.completedLt
  · intro dir' hd'
    obtain ⟨dir, heq, hcreator⟩ := hd.dir dir' hd'
    rw [hcreator, hd.next]
    exact h.creatorLt dir heq

namespace World

variable {w : World} {p : ℕ} {process : Process}
variable {entry : ℕ}

theorem Inv.settles {d : Disk} {removals : List Removal} (h : w.Inv) (hd : w.disk.Settles d)
    (hs : ∀ removal ∈ removals, removal.completed = true → removal.victim.process = removal.process)
    (hp : process.Sound d p) : Inv (set p process { w with disk := d, removals := removals }) := by
  refine ⟨h.disk.settles hd, ?_, hs⟩
  intro q
  by_cases hq : q = p
  · subst hq
    simpa [World.set] using hp
  · simpa [World.set, hq] using (h.processes q).settles hd

theorem Inv.set (h : w.Inv) (hp : process.Sound w.disk p) : (w.set p process).Inv :=
  h.settles (.refl _) h.spares hp

theorem Inv.moves (h : w.Inv) (hm : (w.processes p).Moves process) : (w.set p process).Inv :=
  h.set (hm.sound (h.processes p))

theorem Inv.start {f : Process → Process} (h : w.Inv)
    (hf : (w.processes p).pc.Free → (w.processes p).Moves (f (w.processes p))) :
    (w.start p f).Inv := by
  unfold World.start
  cases hpc : (w.processes p).pc with
  | idle => exact h.moves (hf (by rw [hpc]; trivial))
  | locking | stamping | givingBack | guarding | touching | compromised | unlocking | removing
  | clearing | erasing | dead => exact h

theorem settles_noDir (d : Disk) : d.Settles { d with dir := none } :=
  ⟨fun dir hd => (by cases hd), .inl rfl, rfl, rfl⟩

theorem Inv.remove (h : w.Inv) {e : Held}
    (hr : (w.processes p).entries[entry]? = some e → w.disk.completed.getLast? = some e.token)
    (he : (w.processes p).entries[entry]? = some e) (hm : (w.processes p).Moves process) :
    ((w.remove p).set p process).Inv := by
  have hown : e.token.process = p :=
    ((h.processes p).entries e (mem_of_getElem? he)).own
  unfold World.remove
  cases hd : w.disk.dir with
  | none => exact h.moves hm
  | some dir =>
    refine h.settles (settles_noDir _) ?_ (hm.sound ((h.processes p).settles (settles_noDir _)))
    intro removal hmem hc
    rcases mem_append.mp hmem with hmem | hmem
    · exact h.spares removal hmem hc
    · rw [mem_singleton.mp hmem] at hc ⊢
      have hlast := h.disk.dirLast dir hd (by simpa using hc)
      rw [hr he, some.injEq] at hlast
      rw [← hlast]
      exact hown

theorem Inv.erase (h : w.Inv) {e : Held} (hr : w.disk.completed.getLast? = some e.token)
    (he : (w.processes p).entries[entry]? = some e) (hm : (w.processes p).Moves process) :
    ((w.erase p).set p process).Inv := by
  have hown : e.token.process = p :=
    ((h.processes p).entries e (mem_of_getElem? he)).own
  unfold World.erase
  cases ht : w.disk.token with
  | none => exact h.moves hm
  | some token =>
    have hsettles : w.disk.Settles { w.disk with token := none } :=
      ⟨fun dir hd => ⟨dir, hd, rfl⟩, .inr rfl, rfl, rfl⟩
    refine h.settles hsettles ?_ (hm.sound ((h.processes p).settles hsettles))
    intro removal hmem hc
    rcases mem_append.mp hmem with hmem | hmem
    · exact h.spares removal hmem hc
    · rw [mem_singleton.mp hmem]
      have hlast := h.disk.last token ht
      rw [hr, some.injEq] at hlast
      change token.process = p
      rw [← hlast]
      exact hown

theorem Inv.locked {dir : Dir} (h : w.Inv) (hnumber : dir.creator.number = w.disk.next)
    (hp : process.Sound { w.disk with dir := some dir, next := w.disk.next + 1 } p) :
    Inv (World.set p process
      { w with disk := { w.disk with dir := some dir, next := w.disk.next + 1 } }) := by
  have hnew : dir.creator ∉ w.disk.completed := by
    intro hm
    have hlt := h.disk.completedLt _ hm
    omega
  refine ⟨⟨h.disk.last, ?_, ?_, ?_⟩, ?_, h.spares⟩
  · intro dir' hd hm
    rw [← some.inj hd] at hm
    exact absurd hm hnew
  · intro token hm
    exact (h.disk.completedLt token hm).trans (Nat.lt_succ_self _)
  · intro dir' hd
    rw [← some.inj hd, hnumber]
    exact Nat.lt_succ_self _
  · intro q
    by_cases hq : q = p
    · subst hq
      simpa [World.set] using hp
    · simpa [World.set, hq] using (h.processes q).locked hnew

theorem Inv.lock (h : w.Inv) {stale : ℕ} {purpose : Purpose}
    (hpc : (w.processes p).pc = .locking stale purpose)
    (hcalm : ∀ entry seen, purpose = .retake entry seen → w.disk.takeable stale = true →
      w.disk.completed.length = seen) : (w.lock p stale purpose).Inv := by
  unfold World.lock
  by_cases htake : w.disk.takeable stale = true
  · rw [if_pos htake]
    refine h.locked rfl ⟨?_, ?_⟩
    · intro e he
      have hs := (h.processes p).entries e he
      exact ⟨hs.own, hs.known, hs.alone⟩
    · refine ⟨⟨rfl, Nat.lt_succ_self _, ?_⟩, ?_, ?_⟩
      · intro hm
        exact absurd (h.disk.completedLt _ hm) (lt_irrefl _)
      · intro dir hd hne
        rw [← some.inj hd] at hne
        exact absurd rfl hne
      · rintro entry seen rfl e he
        have hr := (h.processes p).relies
        unfold Process.Relies at hr
        rw [hpc] at hr
        have hown := hr.2 e he
        rw [← hcalm entry seen rfl htake, take_length] at hown
        exact hown
  · rw [if_neg htake]
    exact h.moves (Process.moves_fail purpose _)

theorem Inv.stamp (h : w.Inv) {mtime stale : ℕ} {purpose : Purpose}
    (hpc : (w.processes p).pc = .stamping token mtime stale purpose)
    (hcheck : ∀ q, q ≠ p → ¬ (w.processes q).pc.Checked)
    (hstamp : w.disk.dir.map Dir.creator = some token →
      ∀ q, q ≠ p → ¬ (w.processes q).pc.Stamping) :
    (w.stamp p token mtime stale purpose).Inv := by
  have hr := (h.processes p).relies
  unfold Process.Relies at hr
  rw [hpc] at hr
  obtain ⟨⟨hown, hlt, hnew⟩, hdir, hretake⟩ := hr
  -- entries of other acquisitions are not alone any more: their tokens are off the disk
  have hentries : ∀ e ∈ (w.processes p).entries, e.Sound
      { w.disk with token := some token, completed := w.disk.completed ++ [token] } p := by
    intro e he
    have hs := (h.processes p).entries e he
    refine ⟨hs.own, mem_append_left _ hs.known, ?_⟩
    intro ht
    have hknown := hs.known
    rw [← some.inj ht] at hknown
    exact absurd hknown hnew
  have hall : ∀ process : Process, process.Sound
      { w.disk with token := some token, completed := w.disk.completed ++ [token] } p →
      Inv (World.set p process { w with disk :=
        { w.disk with token := some token, completed := w.disk.completed ++ [token] } }) := by
    intro process hp
    refine ⟨⟨?_, ?_, ?_, h.disk.creatorLt⟩, ?_, h.spares⟩
    · intro token' ht
      rw [← some.inj ht]
      exact getLast?_concat
    · intro dir hd hm
      change (w.disk.completed ++ [token]).getLast? = some dir.creator
      rw [getLast?_concat]
      rcases mem_append.mp hm with hm | hm
      · by_contra hne
        have hne' : dir.creator ≠ token := fun heq => hne (by rw [heq])
        exact hdir dir hd hne' hm
      · rw [mem_singleton.mp hm]
    · intro token' hm
      rcases mem_append.mp hm with hm | hm
      · exact h.disk.completedLt token' hm
      · rw [mem_singleton.mp hm]
        exact hlt
    · intro q
      by_cases hq : q = p
      · subst hq
        simpa [World.set] using hp
      · have hne : token.process ≠ q := fun heq => hq (heq.symm.trans hown)
        simpa [World.set, hq] using
          (h.processes q).stamped hne (hcheck q hq) (fun hd => hstamp hd q hq)
  cases purpose with
  | fresh exclusive =>
    refine hall _ ⟨?_, trivial⟩
    intro e he
    rcases mem_append.mp he with he | he
    · exact hentries e he
    · rw [mem_singleton.mp he]
      refine ⟨hown, mem_append_right _ (mem_singleton.mpr rfl), ?_⟩
      intro _ t ht
      simp at ht
  | retake entry seen =>
    refine hall _ ⟨?_, trivial⟩
    intro e he
    rcases Process.mem_change he with he | ⟨e', he', rfl⟩
    · exact hentries e he
    · refine ⟨hown, mem_append_right _ (mem_singleton.mpr rfl), ?_⟩
      intro _
      exact (hretake entry seen rfl e' he').concat hown

theorem Inv.withEntry {f : Held → World → World} (h : w.Inv)
    (hf : ∀ e, (w.processes p).entries[entry]? = some e → (f e w).Inv) :
    (w.withEntry p entry f).Inv := by
  unfold World.withEntry
  cases he : (w.processes p).entries[entry]? with
  | none => exact h
  | some e => exact hf e he

theorem owns_iff {d : Disk} : d.owns token = true ↔ d.token = some token := by
  simp [Disk.owns]

section Entry

variable {entry : ℕ} {e : Held}

theorem Inv.guard (h : w.Inv) : (w.guard p entry e).Inv := by
  unfold World.guard
  split
  · exact h.moves (Process.moves_goTo trivial)
  · exact h.moves (Process.moves_compromise entry e _)

theorem Inv.touch (h : w.Inv) : (w.touch p entry e).Inv := by
  unfold World.touch
  cases hd : w.disk.dir with
  | none => exact h.moves (Process.moves_compromise entry e _)
  | some dir =>
    have hsettles : w.disk.Settles
        { w.disk with dir := some { dir with mtime := w.disk.now } } := by
      refine ⟨?_, .inl rfl, rfl, rfl⟩
      intro dir' hd'
      refine ⟨dir, hd, ?_⟩
      rw [← some.inj hd']
    have hm : (w.processes p).Moves (((w.processes p).change entry
        (fun e => { e with mtime := w.disk.now })).goTo .idle) :=
      ⟨fun hs => Process.entries_keep entry (fun _ => ⟨rfl, rfl⟩) hs, trivial⟩
    exact h.settles hsettles h.spares (hm.sound ((h.processes p).settles hsettles))

theorem Inv.onCompromised (h : w.Inv) (he : (w.processes p).entries[entry]? = some e) :
    (w.onCompromised p entry e).Inv := by
  unfold World.onCompromised
  by_cases ho : w.disk.owns e.token = true
  · rw [if_pos ho]
    refine h.set ⟨(h.processes p).entries, le_refl _, ?_⟩
    intro e' he'
    have heq : e' = e := some.inj (he'.symm.trans he)
    rw [take_length, heq]
    exact ((h.processes p).entries e (mem_of_getElem? he)).alone (owns_iff.mp ho)
  · rw [if_neg ho]
    exact h.moves (Process.moves_lose_goTo trivial)

theorem Inv.unlock (h : w.Inv) (he : (w.processes p).entries[entry]? = some e) (exit : Bool) :
    (w.unlock p entry exit e).Inv := by
  have hkeep : ∀ e ∈ ((w.processes p).change entry
      (fun e => { e with active := false })).entries, e.Sound w.disk p :=
    Process.entries_keep entry (fun _ => ⟨rfl, rfl⟩) (h.processes p).entries
  simp only [World.unlock]
  by_cases hactive : e.active = false
  · rw [if_pos hactive]
    exact h.moves (Process.moves_goTo trivial)
  rw [if_neg hactive]
  by_cases ho : w.disk.owns e.token = true
  · rw [if_pos ho]
    refine h.set ⟨hkeep, ?_⟩
    intro e' he'
    simp only [Process.goTo, Process.change, getElem?_modify_eq, he] at he'
    rw [← some.inj he']
    exact h.disk.last _ (owns_iff.mp ho)
  · rw [if_neg ho]
    refine h.set ⟨hkeep, Process.Relies.of_free ?_⟩
    cases exit <;> trivial

theorem Inv.clear (h : w.Inv) (he : (w.processes p).entries[entry]? = some e) :
    (w.clear p entry e).Inv := by
  unfold World.clear
  by_cases ho : w.disk.owns e.token = true
  · rw [if_pos ho]
    refine h.set ⟨(h.processes p).entries, ?_⟩
    intro e' he'
    have heq : e' = e := some.inj (he'.symm.trans he)
    rw [heq]
    exact h.disk.last _ (owns_iff.mp ho)
  · rw [if_neg ho]
    exact h.moves (Process.moves_goTo trivial)

end Entry

theorem Inv.next (h : w.Inv) (fails : Bool) {pc : Pc} (hpc : (w.processes p).pc = pc)
    (hcalm : w.CalmNext p fails pc) : (w.next p fails pc).Inv := by
  have hrelies := (h.processes p).relies
  unfold Process.Relies at hrelies
  rw [hpc] at hrelies
  cases pc with
  | idle | dead => exact h
  | locking stale purpose =>
    refine h.lock hpc ?_
    rintro entry seen rfl
    exact hcalm
  | stamping token mtime stale purpose =>
    cases fails with
    | true =>
      have hm : (w.processes p).Moves ((w.processes p).goTo (.givingBack purpose)) :=
        Process.moves_goTo trivial
      exact h.moves hm
    | false => exact h.stamp hpc (hcalm rfl).1 (hcalm rfl).2
  | givingBack purpose =>
    have hm := Process.moves_fail purpose (w.processes p)
    exact h.settles (settles_noDir _) h.spares
      (hm.sound ((h.processes p).settles (settles_noDir _)))
  | guarding entry => exact h.withEntry fun e _ => h.guard
  | touching entry => exact h.withEntry fun e _ => h.touch
  | compromised entry => exact h.withEntry fun e he => h.onCompromised he
  | unlocking entry exit => exact h.withEntry fun e he => h.unlock he exit
  | removing entry exit =>
    have hm : (w.processes p).Moves
        ((w.processes p).goTo (if exit then .dead else .clearing entry)) := by
      refine Process.moves_goTo ?_
      cases exit <;> trivial
    have hremove : ∀ e, (w.processes p).entries[entry]? = some e →
        ((w.remove p).set p
          ((w.processes p).goTo (if exit then .dead else .clearing entry))).Inv := by
      intro e he
      exact h.remove (hrelies e) he hm
    exact Inv.withEntry (f := fun _ w => (w.remove p).set p
      ((w.processes p).goTo (if exit then .dead else .clearing entry))) h hremove
  | clearing entry => exact h.withEntry fun e he => h.clear he
  | erasing entry =>
    have hm : (w.processes p).Moves ((w.processes p).goTo .idle) := Process.moves_goTo trivial
    have herase : ∀ e, (w.processes p).entries[entry]? = some e →
        ((w.erase p).set p ((w.processes p).goTo .idle)).Inv := by
      intro e he
      exact h.erase (hrelies e he) he hm
    exact Inv.withEntry (f := fun _ w => (w.erase p).set p ((w.processes p).goTo .idle)) h herase

theorem Inv.perform (h : w.Inv) (act : Act) (hcalm : w.Calm act) : (w.perform act).Inv := by
  cases act with
  | acquire p exclusive stale =>
    exact h.start fun hf => Process.moves_acquire exclusive stale w.disk hf
  | release p entry => exact h.start fun hf => Process.moves_release entry w.disk hf
  | check p entry => exact h.start fun hf => Process.moves_check entry w.disk hf
  | refresh p entry => exact h.start fun hf => Process.moves_refresh entry w.disk hf
  | exit p entry => exact h.start fun _ => Process.moves_exit entry _
  | advance p fails => exact h.next fails rfl hcalm
  | crash p =>
    have hm : (w.processes p).Moves ((w.processes p).goTo .dead) := Process.moves_goTo trivial
    exact h.moves hm
  | dirDeleted =>
    exact ⟨h.disk.settles (settles_noDir _), fun p => (h.processes p).settles (settles_noDir _),
      h.spares⟩
  | tick time =>
    have hsettles : w.disk.Settles { w.disk with now := w.disk.now + time } :=
      ⟨fun dir hd => ⟨dir, hd, rfl⟩, .inl rfl, rfl, rfl⟩
    exact ⟨h.disk.settles hsettles, fun p => (h.processes p).settles hsettles, h.spares⟩

theorem init_inv : init.Inv := by
  refine ⟨⟨?_, ?_, ?_, ?_⟩, fun p => ⟨?_, trivial⟩, ?_⟩
  · intro token ht
    cases ht
  · intro dir hd
    cases hd
  · intro token ht
    cases ht
  · intro dir hd
    cases hd
  · intro e he
    cases he
  · intro removal hr
    cases hr

end World

/-- Along every run in which no acquisition is completed between another process's check and what it
guards, a handle that is not lost holds the file alone, and a release spares the other processes. -/
theorem lock_excludes {w : World} (h : system.ReachableBy World.Calm w) : w.Alone ∧ w.Spares := by
  obtain ⟨w₀, rfl, hrun⟩ := h
  have hinv : w.Inv := by
    refine hrun.invariant ?_ World.init_inv
    rintro w act w' hi hcalm rfl
    exact hi.perform act hcalm
  refine ⟨?_, hinv.spares⟩
  intro p e he _ ho
  exact ((hinv.processes p).entries e he).alone (World.owns_iff.mp ho)

/-! ### A release and an acquisition -/

/-- A process acquires the lock and releases it, up to the removal of its token. -/
def releasing : List Act :=
  [.acquire 0 false 10, .advance 0 false, .advance 0 false, .release 0 0, .advance 0 false,
    .advance 0 false, .advance 0 false]

/-- Another process acquires the lock. -/
def acquiring : List Act :=
  [.acquire 1 false 10, .advance 1 false, .advance 1 false]

def World.after (acts : List Act) : World :=
  acts.foldl World.perform World.init

/-- With the removal of the token before the acquisition, the release spares it. -/
theorem lock_excludes_handedOver :
    (World.after (releasing ++ .advance 0 false :: acquiring)).Alone ∧
      (World.after (releasing ++ .advance 0 false :: acquiring)).Spares := by
  have hrun : system.Along World.Calm World.perform World.init
      (releasing ++ .advance 0 false :: acquiring) := by
    refine ⟨rfl, trivial, rfl, trivial, rfl, ?_, rfl, trivial, rfl, trivial, rfl, trivial, rfl,
      trivial, rfl, trivial, rfl, trivial, rfl, trivial, rfl, ?_, trivial⟩
    · refine fun _ => ⟨?_, fun _ => ?_⟩
      · rintro (_ | q) hq
        · exact absurd rfl hq
        · exact id
      · rintro (_ | q) hq
        · exact absurd rfl hq
        · exact id
    · refine fun _ => ⟨?_, fun _ => ?_⟩
      · rintro (_ | _ | q) hq
        · exact id
        · exact absurd rfl hq
        · exact id
      · rintro (_ | _ | q) hq
        · exact id
        · exact absurd rfl hq
        · exact id
  exact lock_excludes ⟨World.init, rfl, hrun.steps⟩

/-- The other process completes its acquisition after the release read its own token and before the
release removes the token it finds. -/
theorem release_removes_acquired : ¬ ∀ w, system.Reachable w → w.Alone ∧ w.Spares := by
  intro h
  have hrun : system.Along (fun _ _ => True) World.perform World.init
      (releasing ++ acquiring ++ [.advance 0 false]) :=
    ⟨rfl, trivial, rfl, trivial, rfl, trivial, rfl, trivial, rfl, trivial, rfl, trivial, rfl,
      trivial, rfl, trivial, rfl, trivial, rfl, trivial, rfl, trivial, trivial⟩
  have hspares := (h _ ⟨World.init, rfl, hrun.steps⟩).2
  have hremoval := hspares ⟨0, ⟨1, 1⟩, true⟩ (mem_cons_of_mem _ mem_cons_self) rfl
  exact absurd hremoval (by decide)

end KnightCode.SessionLock
