import KnightCode.Remote.CallBooks

/-!
# Every call settles once

One invariant of the two ends and both directions, kept by every step. The consumer's slots in use
are its calls sent and not settled, so that the provider never sees more calls than its limit; a
call in flight is on its way, runs, or its end is on its way back.
-/

namespace KnightCode.Calls

open List

namespace ProviderSide

/-- The provider ends calls or holds on its own, and says so. -/
structure Shrinks (p p' : ProviderSide) : Prop where
  within : p'.ledger.Within p.ledger
  sent : ∃ more, p'.wire = p.wire ++ more ∧
    (∀ id, .reply id ∈ more → id ∈ p.ledger.ids ∧ id ∉ p'.ledger.ids) ∧
    ∀ hold, .gone hold ∈ more → hold ∈ p.ledger.entries ∧ hold ∉ p'.ledger.entries
  served : (∀ call ∈ p.ledger.calls, call.2 ∈ p.ledger.entries) →
    ∀ call ∈ p'.ledger.calls, call.2 ∈ p'.ledger.entries
  holds : ∀ hold ∈ p.ledger.entries, hold ∈ p'.ledger.entries ∨ .gone hold ∈ p'.wire
  calls : ∀ call ∈ p.ledger.calls,
    call ∈ p'.ledger.calls ∨ .reply call.1 ∈ p'.wire ∨ .gone call.2 ∈ p'.wire
  closed : p'.closed = p.closed
  limit : p'.limit = p.limit

variable {p p' p'' : ProviderSide}

theorem Shrinks.wire (h : p.Shrinks p') : p.wire ⊆ p'.wire := by
  obtain ⟨more, hmore, -⟩ := h.sent
  rw [hmore]
  exact fun _ hm => mem_append_left _ hm

theorem Shrinks.refl (p : ProviderSide) : p.Shrinks p :=
  ⟨.refl _, ⟨[], by simp, by simp, by simp⟩, id, fun _ h => .inl h, fun _ h => .inl h, rfl, rfl⟩

theorem Shrinks.trans (h : p.Shrinks p') (h' : p'.Shrinks p'') : p.Shrinks p'' := by
  obtain ⟨more, hmore, hreply, hgone⟩ := h.sent
  obtain ⟨more', hmore', hreply', hgone'⟩ := h'.sent
  refine ⟨⟨h'.within.entries.trans h.within.entries, h'.within.calls.trans h.within.calls⟩,
    ⟨more ++ more', by rw [hmore', hmore, append_assoc], ?_, ?_⟩,
    fun hs => h'.served (h.served hs), ?_, ?_, h'.closed.trans h.closed, h'.limit.trans h.limit⟩
  · intro id hm
    rcases mem_append.mp hm with hm | hm
    · exact ⟨(hreply id hm).1, fun hi => (hreply id hm).2 (h'.within.ids.subset hi)⟩
    · exact ⟨h.within.ids.subset (hreply' id hm).1, (hreply' id hm).2⟩
  · intro hold hm
    rcases mem_append.mp hm with hm | hm
    · exact ⟨(hgone hold hm).1, fun hi => (hgone hold hm).2 (h'.within.entries.subset hi)⟩
    · exact ⟨h.within.entries.subset (hgone' hold hm).1, (hgone' hold hm).2⟩
  · intro hold hm
    rcases h.holds hold hm with hm | hm
    · exact h'.holds hold hm
    · exact .inr (h'.wire hm)
  · intro call hm
    rcases h.calls call hm with hm | hm | hm
    · exact h'.calls call hm
    · exact .inr (.inl (h'.wire hm))
    · exact .inr (.inr (h'.wire hm))

theorem shrinks_reply (id : ℕ) (p : ProviderSide) : p.Shrinks (p.reply id) := by
  unfold reply
  by_cases hid : id ∈ p.ledger.calls.map Prod.fst
  · rw [if_pos hid]
    refine ⟨⟨List.Sublist.refl _, filter_sublist⟩, ⟨[.reply id], rfl, ?_, by simp⟩, ?_,
      fun _ h => .inl h, ?_, rfl, rfl⟩
    · intro id' hm
      rw [mem_singleton, ToConsumer.reply.injEq] at hm
      subst hm
      refine ⟨hid, ?_⟩
      simp [Ledger.ids, send, abort]
    · exact fun hs call hm => hs call (mem_filter.mp hm).1
    · intro call hm
      by_cases heq : call.1 = id
      · exact .inr (.inl (by simp [send, heq]))
      · exact .inl (mem_filter.mpr ⟨hm, by simpa using heq⟩)
  · rw [if_neg hid]
    exact .refl p

theorem shrinks_unbound (hold : ℕ) (p : ProviderSide) : p.Shrinks (p.unbound hold) := by
  have hall : ∀ (calls : List (ℕ × ℕ)) (p : ProviderSide),
      p.Shrinks (calls.foldl (fun p call => p.reply call.1) p) := by
    intro calls
    induction calls with
    | nil => exact Shrinks.refl
    | cons call calls ih => exact fun p => (shrinks_reply call.1 p).trans (ih _)
  exact hall _ p

theorem shrinks_ended (hold : ℕ) (p : ProviderSide) : p.Shrinks (p.ended hold) := by
  unfold ended
  by_cases hk : hold ∈ p.ledger.entries
  · rw [if_pos hk]
    refine ⟨⟨filter_sublist, filter_sublist⟩, ⟨[.gone hold], rfl, by simp, ?_⟩, ?_, ?_,
      ?_, rfl, rfl⟩
    · intro hold' hm
      rw [mem_singleton, ToConsumer.gone.injEq] at hm
      subst hm
      exact ⟨hk, by simp [send, forget]⟩
    · intro hs call hm
      obtain ⟨hm, hne⟩ := mem_filter.mp hm
      exact mem_filter.mpr ⟨hs call hm, hne⟩
    · intro hold' hm
      by_cases heq : hold' = hold
      · exact .inr (by simp [send, heq])
      · exact .inl (mem_filter.mpr ⟨hm, by simpa using heq⟩)
    · intro call hm
      by_cases heq : call.2 = hold
      · exact .inr (.inr (by simp [send, heq]))
      · exact .inl (mem_filter.mpr ⟨hm, by simpa using heq⟩)
  · rw [if_neg hk]
    exact .refl p

theorem shrinks_send {message : ToConsumer} (hr : ∀ id, message ≠ .reply id)
    (hg : ∀ hold, message ≠ .gone hold) (p : ProviderSide) : p.Shrinks (p.send message) := by
  refine ⟨.refl _, ⟨[message], rfl, ?_, ?_⟩, id, fun _ h => .inl h, fun _ h => .inl h, rfl, rfl⟩
  · exact fun id hm => absurd (mem_singleton.mp hm).symm (hr id)
  · exact fun hold hm => absurd (mem_singleton.mp hm).symm (hg hold)

structure Handles (p : ProviderSide) (message : ToProvider) (p' : ProviderSide) : Prop where
  within : p'.ledger.Within (p.ledger.see message)
  sent : p'.wire = p.wire ∨
    ∃ id hold, message = .call id hold ∧ p'.wire = p.wire ++ [.reply id] ∧ p'.ledger = p.ledger
  served : (∀ call ∈ p.ledger.calls, call.2 ∈ p.ledger.entries) →
    ∀ call ∈ p'.ledger.calls, call.2 ∈ p'.ledger.entries
  holds : p'.closed = none → ∀ hold, hold ∈ p.ledger.entries ∧ message ≠ .release hold ∨
    message = .hold hold → hold ∈ p'.ledger.entries
  calls : p'.closed = none → ∀ call ∈ p.ledger.calls, message ≠ .abort call.1 →
    message ≠ .release call.2 → call ∈ p'.ledger.calls
  called : p'.closed = none → ∀ id hold, message = .call id hold → hold ∈ p.ledger.entries →
    (id, hold) ∈ p'.ledger.calls ∨ .reply id ∈ p'.wire
  limit : p'.limit = p.limit

/-- A truthful peer's message: its ids are new, and there is room for a call. -/
structure Truthful (p : ProviderSide) (message : ToProvider) : Prop where
  hold : ∀ id, message = .hold id → id ∉ p.ledger.entries
  call : ∀ id hold, message = .call id hold → id ∉ p.ledger.ids
  room : ∀ id hold, message = .call id hold → hold ∈ p.ledger.entries →
    p.ledger.calls.length < p.limit

theorem handles_close (p : ProviderSide) (message : ToProvider) (closing : Closing) :
    p.Handles message (p.close closing) := by
  refine ⟨⟨nil_sublist _, nil_sublist _⟩, .inl rfl, ?_, ?_, ?_, ?_, rfl⟩
  · intro _ call hm
    cases hm
  · intro hopen
    cases hopen
  · intro hopen
    cases hopen
  · intro hopen
    cases hopen

theorem handles_hold (p : ProviderSide) (id : ℕ) : p.Handles (.hold id) (p.hold id) := by
  unfold hold
  by_cases hk : id ∈ p.ledger.entries
  · rw [if_pos hk]
    exact handles_close p _ _
  · rw [if_neg hk]
    refine ⟨.refl _, .inl rfl, ?_, ?_, fun _ call hm _ _ => hm, by simp, rfl⟩
    · exact fun hs call hm => mem_append_left _ (hs call hm)
    · rintro - hold (⟨hm, -⟩ | heq)
      · exact mem_append_left _ hm
      · rw [ToProvider.hold.injEq] at heq
        exact mem_append_right _ (by simp [heq])

theorem handles_release (hs : ∀ call ∈ p.ledger.calls, call.2 ∈ p.ledger.entries) (id : ℕ) :
    p.Handles (.release id) (p.release id) := by
  unfold release
  by_cases hk : id ∈ p.ledger.entries
  · rw [if_pos hk]
    refine ⟨.refl _, .inl rfl, ?_, ?_, ?_, by simp, rfl⟩
    · intro hs call hm
      obtain ⟨hm, hne⟩ := mem_filter.mp hm
      exact mem_filter.mpr ⟨hs call hm, hne⟩
    · rintro - hold (⟨hm, hne⟩ | heq)
      · refine mem_filter.mpr ⟨hm, ?_⟩
        simpa using fun heq => hne (by rw [heq])
      · cases heq
    · intro _ call hm _ hne
      refine mem_filter.mpr ⟨hm, ?_⟩
      simpa using fun heq => hne (by rw [heq])
  · rw [if_neg hk]
    refine ⟨⟨?_, ?_⟩, .inl rfl, fun hs => hs, ?_, fun _ call hm _ _ => hm, by simp, rfl⟩
    · rw [show (p.ledger.see (.release id)).entries = p.ledger.entries.filter (· ≠ id) from rfl,
        filter_eq_self.mpr]
      intro hold hm
      simpa using fun heq => hk (by rwa [heq] at hm)
    · rw [show (p.ledger.see (.release id)).calls =
        p.ledger.calls.filter (fun call => call.2 ≠ id) from rfl, filter_eq_self.mpr]
      intro call hm
      simpa using fun heq => hk (by rw [← heq]; exact hs call hm)
    · rintro - hold (⟨hm, -⟩ | heq)
      · exact hm
      · cases heq

theorem handles_call (p : ProviderSide) (id hold : ℕ) (check : Check) :
    p.Handles (.call id hold) (p.call id hold check) := by
  unfold call
  by_cases hid : id ∈ p.ledger.calls.map Prod.fst
  · rw [if_pos hid]
    exact handles_close p _ _
  rw [if_neg hid]
  by_cases hk : hold ∈ p.ledger.entries
  · rw [if_neg (not_not.mpr hk)]
    by_cases hfull : p.limit ≤ p.ledger.calls.length
    · rw [if_pos hfull]
      exact handles_close p _ _
    rw [if_neg hfull]
    have hsee : p.ledger.see (.call id hold) =
        { p.ledger with calls := p.ledger.calls ++ [(id, hold)] } := if_pos hk
    cases check with
    | malformed => exact handles_close p _ _
    | refused =>
      refine ⟨?_, .inr ⟨id, hold, rfl, rfl, rfl⟩, fun hs => hs, ?_, fun _ call hm _ _ => hm, ?_,
        rfl⟩
      · rw [hsee]
        exact ⟨List.Sublist.refl _, sublist_append_left _ _⟩
      · rintro - hold' (⟨hm, -⟩ | heq)
        · exact hm
        · cases heq
      · intro _ id' hold' heq _
        rw [ToProvider.call.injEq] at heq
        exact .inr (by simp [send, heq.1])
    | runs =>
      refine ⟨?_, .inl rfl, ?_, ?_, ?_, ?_, rfl⟩
      · rw [hsee]
        exact .refl _
      · intro hs call hm
        rcases mem_append.mp hm with hm | hm
        · exact hs call hm
        · rw [mem_singleton.mp hm]
          exact hk
      · rintro - hold' (⟨hm, -⟩ | heq)
        · exact hm
        · cases heq
      · exact fun _ call hm _ _ => mem_append_left _ hm
      · intro _ id' hold' heq _
        rw [ToProvider.call.injEq] at heq
        exact .inl (mem_append_right _ (by simp [heq.1, heq.2]))
  · rw [if_pos hk]
    have hsee : p.ledger.see (.call id hold) = p.ledger := if_neg hk
    refine ⟨by rw [hsee]; exact .refl _, .inl rfl, fun hs => hs, ?_, fun _ call hm _ _ => hm, ?_,
      rfl⟩
    · rintro - hold' (⟨hm, -⟩ | heq)
      · exact hm
      · cases heq
    · intro _ id' hold' heq hm
      rw [ToProvider.call.injEq] at heq
      exact absurd (heq.2 ▸ hm) hk

theorem handles_abort (p : ProviderSide) (id : ℕ) : p.Handles (.abort id) (p.abort id) := by
  refine ⟨.refl _, .inl rfl, ?_, ?_, ?_, by simp, rfl⟩
  · exact fun hs call hm => hs call (mem_filter.mp hm).1
  · rintro - hold (⟨hm, -⟩ | heq)
    · exact hm
    · cases heq
  · intro _ call hm hne _
    refine mem_filter.mpr ⟨hm, ?_⟩
    simpa using fun heq => hne (by rw [heq])

theorem handles_message (hs : ∀ call ∈ p.ledger.calls, call.2 ∈ p.ledger.entries)
    (message : ToProvider) (check : Check) : p.Handles message (p.message message check) := by
  cases message with
  | hold id => exact handles_hold p id
  | release id => exact handles_release hs id
  | call id hold => exact handles_call p id hold check
  | abort id => exact handles_abort p id

theorem closed_message {message : ToProvider} (h : p.Truthful message) (check : Check) :
    (p.message message check).closed = p.closed ∨
      (p.message message check).closed = some .malformed := by
  cases message with
  | hold id =>
    refine .inl ?_
    simp only [ProviderSide.message, hold, if_neg (h.hold id rfl)]
  | release id =>
    refine .inl ?_
    simp only [ProviderSide.message, release]
    split <;> rfl
  | call id hold =>
    have hid : ¬id ∈ p.ledger.calls.map Prod.fst := h.call id hold rfl
    simp only [ProviderSide.message, call, if_neg hid]
    by_cases hk : hold ∈ p.ledger.entries
    · have hroom : ¬p.limit ≤ p.ledger.calls.length := not_le.mpr (h.room id hold rfl hk)
      rw [if_neg (not_not.mpr hk), if_neg hroom]
      cases check with
      | runs => exact .inl rfl
      | refused => exact .inl rfl
      | malformed => exact .inr rfl
    · rw [if_pos hk]
      exact .inl rfl
  | abort id => exact .inl rfl

end ProviderSide

namespace ConsumerSide

variable {limit : ℕ} {p p' : ProviderSide} {c : ConsumerSide}

theorem Wired.shrinks (h : c.Wired limit p) (hs : p.Shrinks p') : c.Wired limit p' := by
  obtain ⟨more, hmore, hreply, hgone⟩ := hs.sent
  have hids : (p'.ledger.ids ++ callIds c.wire).Sublist (p.ledger.ids ++ callIds c.wire) :=
    hs.within.ids.append (List.Sublist.refl _)
  have hholds : (p'.ledger.entries ++ holdIds c.wire).Sublist
      (p.ledger.entries ++ holdIds c.wire) :=
    hs.within.entries.append (List.Sublist.refl _)
  refine ⟨h.fits.mono hs.within, h.nodup.sublist hids, fun id hm => h.idsLt id (hids.subset hm),
    h.nodupHolds.sublist hholds, fun hold hm => h.holdsLt hold (hholds.subset hm), ?_, ?_,
    hs.served h.served⟩
  · intro id hm
    rw [hmore] at hm
    rcases mem_append.mp hm with hm | hm
    · exact ⟨fun hi => (h.replies id hm).1 (hids.subset hi), (h.replies id hm).2⟩
    · obtain ⟨hin, hout⟩ := hreply id hm
      refine ⟨?_, h.idsLt id (mem_append_left _ hin)⟩
      rw [mem_append, not_or]
      exact ⟨hout, fun hi => (disjoint_of_nodup_append h.nodup) hin hi⟩
  · intro hold hm
    rw [hmore] at hm
    rcases mem_append.mp hm with hm | hm
    · exact ⟨fun hi => (h.gone hold hm).1 (hholds.subset hi), (h.gone hold hm).2⟩
    · obtain ⟨hin, hout⟩ := hgone hold hm
      refine ⟨?_, h.holdsLt hold (mem_append_left _ hin)⟩
      rw [mem_append, not_or]
      exact ⟨hout, fun hi => (disjoint_of_nodup_append h.nodupHolds) hin hi⟩

theorem Tied.shrinks (h : c.Tied p []) (hs : p.Shrinks p') : c.Tied p' [] := by
  refine ⟨?_, ?_, ?_⟩
  · exact fun call hm => h.tracked call ((hs.within.track c.wire).calls.subset hm)
  · intro hopen hold hm
    rcases h.alive (hs.closed ▸ hopen) hold hm with ha | ha
    · rcases mem_append.mp ha with ha | ha
      · exact (hs.holds hold ha).imp_left (fun ha => mem_append_left _ ha)
      · exact .inl (mem_append_right _ ha)
    · exact .inr (hs.wire ha)
  · intro hopen pair hm hentry
    rcases h.underway (hs.closed ▸ hopen) pair hm hentry with hu | hu | hu | hu
    · exact .inl hu
    · exact .inr (hs.calls pair hu)
    · exact .inr (.inr (.inl (hs.wire hu)))
    · exact .inr (.inr (.inr (hs.wire hu)))

theorem Steady.shrinks (h : c.Steady limit p) (hs : p.Shrinks p') : c.Steady limit p' :=
  ⟨⟨h.keeps.books, h.keeps.bounded, h.keeps.wired.shrinks hs, h.keeps.tied.shrinks hs,
    h.keeps.unclosed⟩, h.conserving⟩

theorem Wired.close (h : c.Wired limit p) (closing : Closing) :
    c.Wired limit (p.close closing) := by
  have hw : (p.close closing).ledger.Within p.ledger :=
    ⟨nil_sublist _, nil_sublist _⟩
  have hids : (callIds c.wire).Sublist (p.ledger.ids ++ callIds c.wire) :=
    sublist_append_right _ _
  have hholds : (holdIds c.wire).Sublist (p.ledger.entries ++ holdIds c.wire) :=
    sublist_append_right _ _
  refine ⟨h.fits.mono hw, h.nodup.sublist hids, fun id hm => h.idsLt id (hids.subset hm),
    h.nodupHolds.sublist hholds, fun hold hm => h.holdsLt hold (hholds.subset hm), ?_, ?_, by
      intro call hm
      cases hm⟩
  · exact fun id hm => ⟨fun hi => (h.replies id hm).1 (hids.subset hi), (h.replies id hm).2⟩
  · exact fun hold hm => ⟨fun hi => (h.gone hold hm).1 (hholds.subset hi), (h.gone hold hm).2⟩

theorem Steady.close (h : c.Steady limit p) (closing : Closing) :
    c.Steady limit (p.close closing) := by
  have hw : (p.close closing).ledger.Within p.ledger :=
    ⟨nil_sublist _, nil_sublist _⟩
  refine ⟨⟨h.keeps.books, h.keeps.bounded, h.keeps.wired.close closing, ⟨?_, ?_, ?_⟩,
    h.keeps.unclosed⟩, h.conserving⟩
  · exact fun call hm => h.keeps.tied.tracked call ((hw.track c.wire).calls.subset hm)
  · intro hopen
    cases hopen
  · intro hopen
    cases hopen

/-! ### A message arrives -/

section Arrive

variable {message : ToProvider} {wire : List ToProvider}

theorem Wired.truthful (h : c.Wired limit p) (hw : c.wire = message :: wire)
    (hlimit : p.limit = limit) : p.Truthful message := by
  refine ⟨?_, ?_, ?_⟩
  · rintro id rfl hm
    have hn := h.nodupHolds
    rw [hw] at hn
    exact (disjoint_of_nodup_append hn) hm (by simp [holdIds])
  · rintro id hold rfl hm
    have hn := h.nodup
    rw [hw] at hn
    exact (disjoint_of_nodup_append hn) hm (by simp [callIds])
  · rintro id hold rfl hk
    have hf := h.fits
    rw [hw] at hf
    have hlen := hf.2.head
    rw [Ledger.see_call, if_pos hk, length_append, length_singleton] at hlen
    omega

theorem Wired.arrive (h : c.Wired limit p) (hw : c.wire = message :: wire)
    (hh : p.Handles message p') : Wired limit p' { c with wire } := by
  have hids : (p'.ledger.ids ++ callIds wire).Sublist (p.ledger.ids ++ callIds c.wire) := by
    rw [hw]
    exact (hh.within.ids.append (List.Sublist.refl _)).trans (Ledger.ids_see message wire)
  have hholds : (p'.ledger.entries ++ holdIds wire).Sublist
      (p.ledger.entries ++ holdIds c.wire) := by
    rw [hw]
    exact (hh.within.entries.append (List.Sublist.refl _)).trans (Ledger.entries_see message wire)
  have hf := h.fits
  rw [hw] at hf
  refine ⟨hf.2.mono hh.within, h.nodup.sublist hids, fun id hm => h.idsLt id (hids.subset hm),
    h.nodupHolds.sublist hholds, fun hold hm => h.holdsLt hold (hholds.subset hm), ?_, ?_,
    hh.served h.served⟩
  · intro id hm
    rcases hh.sent with hsent | ⟨id', hold, rfl, hsent, hledger⟩
    · rw [hsent] at hm
      exact ⟨fun hi => (h.replies id hm).1 (hids.subset hi), (h.replies id hm).2⟩
    · rw [hsent, mem_append, mem_singleton, ToConsumer.reply.injEq] at hm
      rcases hm with hm | rfl
      · exact ⟨fun hi => (h.replies id hm).1 (hids.subset hi), (h.replies id hm).2⟩
      · have hn := h.nodup
        have hlt := h.idsLt id
        rw [hw, callIds] at hn hlt
        refine ⟨?_, hlt (by simp)⟩
        rw [hledger]
        exact (nodup_middle.mp hn).notMem
  · intro hold hm
    rcases hh.sent with hsent | ⟨id', hold', rfl, hsent, -⟩
    · rw [hsent] at hm
      exact ⟨fun hi => (h.gone hold hm).1 (hholds.subset hi), (h.gone hold hm).2⟩
    · rw [hsent, mem_append, mem_singleton] at hm
      have hm := hm.resolve_right (by simp)
      exact ⟨fun hi => (h.gone hold hm).1 (hholds.subset hi), (h.gone hold hm).2⟩

theorem Steady.arrive (h : c.Steady limit p) (hw : c.wire = message :: wire)
    (hopen : p.closed = none) (hh : p.Handles message p') : Steady limit p' { c with wire } := by
  have hmem : message ∈ c.wire := by simp [hw]
  have hsub : ∀ m, m ∈ wire → m ∈ c.wire := fun m hm => by simp [hw, hm]
  have hbooks := h.keeps.books
  have hsent : p.wire ⊆ p'.wire := by
    rcases hh.sent with hs | ⟨_, _, _, hs, _⟩
    · rw [hs]
      exact fun _ hm => hm
    · rw [hs]
      exact fun _ hm => mem_append_left _ hm
  refine ⟨⟨{ hbooks with
    released := fun hold hm => hbooks.released hold (hsub _ hm),
    aborted := fun id hm => hbooks.aborted id (hsub _ hm),
    callHolds := fun id hold hm => hbooks.callHolds id hold (hsub _ hm), order := ?_ }, h.keeps.bounded,
    h.keeps.wired.arrive hw hh, ⟨?_, ?_, ?_⟩, h.keeps.unclosed⟩, h.conserving⟩
  · have horder := hbooks.order
    rw [hw] at horder
    exact horder.of_cons
  · intro call hm
    refine h.keeps.tied.tracked call ?_
    rw [hw]
    exact (hh.within.track wire).calls.subset hm
  · intro hopen' hold hm
    rcases h.keeps.tied.alive hopen hold hm with ha | ha
    · refine .inl ?_
      rw [hw] at ha
      rcases mem_append.mp ha with ha | ha
      · refine mem_append_left _ (hh.holds hopen' hold (.inl ⟨ha, ?_⟩))
        rintro rfl
        exact (hbooks.released hold hmem).1 hm
      · rcases mem_cons.mp (mem_holdIds.mp ha) with ha | ha
        · exact mem_append_left _ (hh.holds hopen' hold (.inr ha.symm))
        · exact mem_append_right _ (mem_holdIds.mpr ha)
    · exact .inr (hsent ha)
  · intro hopen' pair hm hentry
    have hid : pair.1 ∈ c.ids := by
      obtain ⟨call, hcall, rfl⟩ := mem_map.mp hm
      exact mem_map_of_mem hcall
    rcases h.keeps.tied.underway hopen pair hm hentry with hu | hu | hu | hu
    · rw [hw] at hu
      rcases mem_cons.mp hu with hu | hu
      · rcases h.keeps.tied.alive hopen pair.2 hentry with ha | ha
        · rcases mem_append.mp ha with ha | ha
          · exact .inr ((hh.called hopen' pair.1 pair.2 hu.symm ha).imp_right .inl)
          · -- the hold would follow the call on the way
            have horder := hbooks.order
            have hin := mem_holdIds.mp ha
            rw [hw] at horder hin
            rcases mem_cons.mp hin with hin | hin
            · rw [← hu] at hin
              cases hin
            · exact absurd rfl ((pairwise_cons.mp horder).1 _ hin pair.1 pair.2 hu.symm)
        · exact .inr (.inr (.inr (hsent ha)))
      · exact .inl hu
    · refine .inr (.inl (hh.calls hopen' pair hu ?_ ?_))
      · rintro rfl
        exact (hbooks.aborted pair.1 hmem).1 hid
      · rintro rfl
        exact (hbooks.released pair.2 hmem).1 hentry
    · exact .inr (.inr (.inl (hsent hu)))
    · exact .inr (.inr (.inr (hsent hu)))

end Arrive

/-! ### A message is delivered -/

theorem ids_drainList {waiting : List OutgoingCall} {id : ℕ}
    (h : id ∈ (drainList waiting c).ids) : id ∈ c.ids ∨ c.nextCall ≤ id := by
  induction waiting generalizing c with
  | nil => exact .inl h
  | cons call rest ih =>
    rw [drainList] at h
    split at h
    · exact .inl h
    · rcases ih h with h | h
      · simp only [take, ids, map_append, mem_append] at h
        exact h.imp_right fun h => by simp at h; exact h.ge
      · exact .inr ((Nat.le_succ _).trans h)

theorem ids_reply {id : ℕ} (hlt : id < c.nextCall) : id ∉ (c.reply id).ids := by
  unfold ConsumerSide.reply
  cases hg : Assoc.get id c.calls with
  | none => exact (Assoc.get_eq_none_iff id c.calls).mp hg
  | some call =>
    intro hm
    rcases ids_drainList hm with hm | hle
    · obtain ⟨e, he, heq⟩ := mem_map.mp hm
      exact (Assoc.mem_erase.mp he).1 heq
    · exact absurd hle (not_le.mpr hlt)

theorem entries_forget (hold : ℕ) (settlement : Settlement) :
    (c.forget hold settlement).entries = c.entries.filter (· ≠ hold) := by
  have hall : ∀ (failed : List (ℕ × OutgoingCall)) (c : ConsumerSide),
      (failed.foldl (fun c call => (c.remove call.1).settle call.2 (some call.1) settlement)
        c).entries = c.entries := by
    intro failed
    induction failed with
    | nil => exact fun _ => rfl
    | cons head failed ih =>
      intro c
      rw [foldl_cons, ih]
      exact entries_drainList _
  rw [ConsumerSide.forget, failCalls_eq, hall, rejectWaiting_eq]

variable {wire : List ToConsumer}

theorem Steady.delivered {message : ToConsumer} (h : c.Steady limit p)
    (hw : p.wire = message :: wire) (hr : ∀ id, message = .reply id → id ∉ c.ids)
    (hg : ∀ hold, message = .gone hold → hold ∉ c.entries) : c.Steady limit { p with wire } := by
  have hsub : ∀ m, m ∈ wire → m ∈ p.wire := fun m hm => by simp [hw, hm]
  have hwired := h.keeps.wired
  refine ⟨⟨h.keeps.books, h.keeps.bounded, { hwired with
    replies := fun id hm => hwired.replies id (hsub _ hm),
    gone := fun hold hm => hwired.gone hold (hsub _ hm) }, ⟨h.keeps.tied.tracked, ?_, ?_⟩,
    h.keeps.unclosed⟩, h.conserving⟩
  · intro hopen hold hm
    refine (h.keeps.tied.alive hopen hold hm).imp_right ?_
    intro ha
    rw [hw] at ha
    exact (mem_cons.mp ha).resolve_left fun heq => hg hold heq.symm hm
  · intro hopen pair hm hentry
    have hid : pair.1 ∈ c.ids := by
      obtain ⟨call, hcall, rfl⟩ := mem_map.mp hm
      exact mem_map_of_mem hcall
    rcases h.keeps.tied.underway hopen pair hm hentry with hu | hu | hu | hu
    · exact .inl hu
    · exact .inr (.inl hu)
    · rw [hw] at hu
      refine .inr (.inr (.inl ?_))
      exact (mem_cons.mp hu).resolve_left fun heq => hr pair.1 heq.symm hid
    · rw [hw] at hu
      refine .inr (.inr (.inr ?_))
      exact (mem_cons.mp hu).resolve_left fun heq => hg pair.2 heq.symm hentry

theorem Steady.deliver {message : ToConsumer} (h : c.Steady limit p)
    (hw : p.wire = message :: wire) : (c.message message).Steady limit { p with wire } := by
  have hmem : message ∈ p.wire := by simp [hw]
  cases message with
  | reply id =>
    obtain ⟨hn, hlt⟩ := h.keeps.wired.replies id hmem
    have hid : id ∉ (p.ledger.track c.wire).ids := fun hm => hn ((Ledger.ids_track _).subset hm)
    refine (h.reply hid).delivered hw ?_ (by simp)
    intro id' heq
    rw [ToConsumer.reply.injEq] at heq
    exact heq ▸ ids_reply hlt
  | failed hold =>
    refine Steady.delivered ?_ hw (by simp) (by simp)
    simp only [ConsumerSide.message]
    split
    · exact h.rejectWaiting hold .failed
    · exact h
  | loading hold =>
    refine Steady.delivered ?_ hw (by simp) (by simp)
    simp only [ConsumerSide.message]
    split
    · exact h.rejectWaiting hold .loading
    · exact h
  | gone hold =>
    simp only [ConsumerSide.message]
    by_cases hentry : hold ∈ c.entries
    · rw [if_pos hentry]
      have hs : Settlement.gone.Frees := by simp [Settlement.Frees]
      have hp : c.Parts p hold [] := .inl ⟨rfl, (h.keeps.wired.gone hold hmem).1⟩
      obtain ⟨hk, hc⟩ := h.keeps.forget h.conserving hp hs
      simp only [append_nil] at hk hc
      refine Steady.delivered ⟨hk, hc⟩ hw (by simp) ?_
      intro hold' heq
      rw [ToConsumer.gone.injEq] at heq
      rw [entries_forget, heq]
      simp
    · rw [if_neg hentry]
      refine h.delivered hw (by simp) ?_
      intro hold' heq
      rw [ToConsumer.gone.injEq] at heq
      exact heq ▸ hentry

/-! ### The consumer's end closes -/

theorem close_eq (c : ConsumerSide) : c.close = { c with
    calls := []
    entries := []
    window := { c.window with waiting := [] }
    closed := true
    settled := c.settled ++ c.calls.map (fun call => ⟨call.2, some call.1, .closed⟩) ++
      c.window.waiting.map (fun call => ⟨call, none, .closed⟩) } := by
  rw [ConsumerSide.close, settle_waiting, settle_sent]

theorem keys_close (h : c.keys.Perm (range c.started)) :
    (c.close.settled.map (fun settled => settled.call.key)).Perm (range c.close.started) := by
  rw [close_eq]
  refine List.Perm.trans ?_ h
  simp only [keys, map_append, map_map, append_assoc]
  refine List.Perm.append_left _ ?_
  exact perm_append_comm

end ConsumerSide

namespace Link

/-- Why a provider's end may close: nothing a truthful peer did. -/
def Excused (p : ProviderSide) : Prop :=
  p.closed = none ∨ p.closed = some .disconnected ∨ p.closed = some .malformed

/-- The consumer is open and steady, or closed with every call settled. -/
structure Inv (limit : ℕ) (l : Link) : Prop where
  limited : l.provider.limit = limit
  wired : l.consumer.Wired limit l.provider
  consumer : l.consumer.Steady limit l.provider ∨
    l.consumer.closed = true ∧
      (l.consumer.settled.map (fun settled => settled.call.key)).Perm
        (range l.consumer.started)
  excused : Excused l.provider

variable {limit : ℕ} {l : Link}

theorem init_inv (limit : ℕ) : Inv limit ⟨.new, .new limit⟩ := by
  have hwired : ConsumerSide.Wired limit (ProviderSide.new limit) .new :=
    ⟨Nat.zero_le _, nodup_nil,
      by simp [ProviderSide.new, Ledger.ids, ConsumerSide.new, callIds], nodup_nil,
      by simp [ProviderSide.new, ConsumerSide.new, holdIds], by simp [ProviderSide.new],
      by simp [ProviderSide.new], by simp [ProviderSide.new]⟩
  refine ⟨rfl, hwired, .inl ⟨⟨⟨rfl, le_refl _, rfl, List.Perm.refl _, nodup_nil, ?_, ?_, ?_,
    ?_, ?_, ?_, ?_, ?_, List.Pairwise.nil, ?_⟩, Nat.zero_le _, hwired, ⟨?_, ?_, ?_⟩, rfl⟩,
    .inl rfl⟩, .inl rfl⟩
  all_goals simp [ConsumerSide.new, ConsumerSide.ids, ConsumerSide.pairs, ProviderSide.new,
    Ledger.track]

theorem Inv.consume {c : ConsumerSide} (h : l.Inv limit) (hopen : l.consumer.closed = false)
    (hc : l.consumer.Steady limit l.provider → c.Steady limit l.provider) :
    Inv limit { l with consumer := c } := by
  rcases h.consumer with hs | ⟨hclosed, -⟩
  · exact ⟨h.limited, (hc hs).keeps.wired, .inl (hc hs), h.excused⟩
  · rw [hopen] at hclosed
    cases hclosed

theorem Inv.shrinks {p : ProviderSide} (h : l.Inv limit) (hs : l.provider.Shrinks p) :
    Inv limit { l with provider := p } := by
  refine ⟨hs.limit.trans h.limited, h.wired.shrinks hs,
    h.consumer.imp_left fun hc => hc.shrinks hs, ?_⟩
  have hex := h.excused
  unfold Excused at hex ⊢
  rw [hs.closed]
  exact hex

theorem Inv.arrive (h : l.Inv limit) (hopen : l.provider.closed = none) (check : Check) :
    (l.arrive check).Inv limit := by
  unfold Link.arrive
  cases hw : l.consumer.wire with
  | nil => exact h
  | cons message wire =>
    have hh := ProviderSide.handles_message h.wired.served message check
    refine ⟨hh.limit.trans h.limited, h.wired.arrive hw hh, ?_, ?_⟩
    · exact h.consumer.imp_left fun hc => hc.arrive hw hopen hh
    · have ht := h.wired.truthful hw h.limited
      unfold Excused
      rcases ProviderSide.closed_message ht check with hc | hc
      · exact .inl (hc.trans hopen)
      · exact .inr (.inr hc)

theorem Inv.deliver (h : l.Inv limit) (hopen : l.consumer.closed = false) :
    l.deliver.Inv limit := by
  unfold Link.deliver
  cases hw : l.provider.wire with
  | nil => exact h
  | cons message wire =>
    rcases h.consumer with hs | ⟨hclosed, -⟩
    · have hd := hs.deliver hw
      exact ⟨h.limited, hd.keeps.wired, .inl hd, h.excused⟩
    · rw [hopen] at hclosed
      cases hclosed

theorem Inv.consumerClosed (h : l.Inv limit) (hopen : l.consumer.closed = false) :
    Inv limit { l with consumer := l.consumer.close } := by
  rcases h.consumer with hs | ⟨hclosed, -⟩
  · have hk := ConsumerSide.keys_close hs.keeps.books.accounts
    have hwired := h.wired
    refine ⟨h.limited, ?_, .inr ⟨?_, hk⟩, h.excused⟩
    · rw [ConsumerSide.close_eq]
      exact { hwired with }
    · rw [ConsumerSide.close_eq]
  · rw [hopen] at hclosed
    cases hclosed

theorem Inv.perform (h : l.Inv limit) (act : Act) (hen : l.Enabled act) :
    (l.perform act).Inv limit := by
  cases act with
  | hello =>
    refine h.consume hen fun hs => ?_
    rw [h.limited]
    exact hs.opened
  | attach => exact h.consume hen fun hs => hs.attach
  | call hold => exact h.consume hen fun hs => hs.call hold
  | cancel key => exact h.consume hen fun hs => hs.cancel key
  | release hold => exact h.consume hen fun hs => hs.release hold
  | deliver => exact h.deliver hen
  | arrive check => exact h.arrive hen check
  | reply call => exact h.shrinks (ProviderSide.shrinks_reply call l.provider)
  | unbound hold => exact h.shrinks (ProviderSide.shrinks_unbound hold l.provider)
  | failed hold => exact h.shrinks (ProviderSide.shrinks_send (by simp) (by simp) l.provider)
  | loading hold => exact h.shrinks (ProviderSide.shrinks_send (by simp) (by simp) l.provider)
  | ended hold => exact h.shrinks (ProviderSide.shrinks_ended hold l.provider)
  | consumerClosed => exact h.consumerClosed hen
  | providerClosed =>
    exact ⟨h.limited, h.wired.close _, h.consumer.imp_left fun hc => hc.close _, .inr (.inl rfl)⟩

theorem inv_reachable (h : (system limit).Reachable l) : l.Inv limit := by
  refine h.invariant ?_ ?_
  · rintro l rfl
    exact init_inv limit
  · rintro l act l' hi - ⟨hen, rfl⟩
    exact hi.perform act hen

def settledKeys (l : Link) : List ℕ :=
  l.consumer.settled.map (fun settled => settled.call.key)

/-- Nothing is on its way and the provider runs nothing; both ends are open and said hello. -/
structure Quiet (l : Link) : Prop where
  hello : l.consumer.window.limit = l.provider.limit
  consumer : l.consumer.closed = false
  provider : l.provider.closed = none
  calls : l.provider.ledger.calls = []
  up : l.consumer.wire = []
  down : l.provider.wire = []

end Link

/-- In every run: each call started settled once, or waits, or is in flight, and only one of these.
While the consumer is open its slots in use are the calls in flight: those sent and not yet
answered, aborted, or on a hold that was released or gone; they are never more than the limit. The
provider never runs more calls than its limit and never closes the link over a number of calls or an
id in use. What is in flight is on its way, runs, or its end is on its way back; so once all is
quiet, or the link closed, every call settled. -/
theorem calls_settle_once {limit : ℕ} {l : Link} (h : (system limit).Reachable l) :
    (l.consumer.closed = false → l.consumer.keys.Perm (range l.consumer.started) ∧
      l.consumer.window.inFlight = l.consumer.calls.length ∧ l.consumer.nextCall =
      l.consumer.calls.length + l.consumer.sentSettled ∧ (∀ settled ∈ l.consumer.settled,
      settled.id.isSome = true → settled.settlement.Frees) ∧ l.consumer.window.inFlight ≤ limit) ∧
    (l.provider.ledger.calls.length ≤ limit ∧ l.provider.closed ≠ some .tooManyCalls ∧
      l.provider.closed ≠ some .callInUse ∧ l.provider.closed ≠ some .holdInUse) ∧
    (l.consumer.closed = false → l.provider.closed = none → ∀ call ∈ l.consumer.pairs,
      .call call.1 call.2 ∈ l.consumer.wire ∨ call ∈ l.provider.ledger.calls ∨
        .reply call.1 ∈ l.provider.wire ∨ .gone call.2 ∈ l.provider.wire) ∧
    (l.consumer.closed = true → l.settledKeys.Perm (range l.consumer.started)) ∧
    (0 < limit → l.Quiet → l.settledKeys.Perm (range l.consumer.started)) := by
  have hi := Link.inv_reachable h
  have hopened : l.consumer.closed = false → l.consumer.Steady limit l.provider := by
    intro hopen
    refine hi.consumer.resolve_right ?_
    rintro ⟨hclosed, -⟩
    rw [hopen] at hclosed
    cases hclosed
  have hunderway : l.consumer.closed = false → l.provider.closed = none →
      ∀ call ∈ l.consumer.pairs,
        .call call.1 call.2 ∈ l.consumer.wire ∨ call ∈ l.provider.ledger.calls ∨
          .reply call.1 ∈ l.provider.wire ∨ .gone call.2 ∈ l.provider.wire := by
    intro hopen hopen' pair hm
    have hs := hopened hopen
    refine hs.keeps.tied.underway hopen' pair hm ?_
    obtain ⟨call, hcall, rfl⟩ := mem_map.mp hm
    exact (hs.keeps.books.callsHeld call hcall).resolve_right (by simp)
  refine ⟨?_, ⟨hi.wired.fits.head, ?_⟩, hunderway, ?_, ?_⟩
  · intro hopen
    have hs := hopened hopen
    have hroom := hs.keeps.books.room
    have hbounded := hs.keeps.bounded
    exact ⟨hs.keeps.books.accounts, hs.keeps.books.slots, hs.keeps.books.counted,
      hs.keeps.books.causes, by omega⟩
  · rcases hi.excused with hc | hc | hc <;> rw [hc] <;> simp
  · intro hclosed
    rcases hi.consumer with hs | ⟨-, hk⟩
    · rw [hs.keeps.unclosed] at hclosed
      cases hclosed
    · exact hk
  · intro hpos hq
    have hs := hopened hq.consumer
    have hcalls : l.consumer.calls = [] := by
      refine eq_nil_iff_forall_not_mem.mpr ?_
      intro call hm
      have hu := hunderway hq.consumer hq.provider (call.1, call.2.hold)
        (mem_map.mpr ⟨call, hm, rfl⟩)
      rw [hq.up, hq.down, hq.calls] at hu
      simp at hu
    have hwaiting : l.consumer.window.waiting = [] := by
      rcases hs.conserving with hw | hfull
      · exact hw
      · have hslots := hs.keeps.books.slots
        rw [hcalls, length_nil] at hslots
        rw [hq.hello, hi.limited, hslots] at hfull
        omega
    have hacc := hs.keeps.books.accounts
    simpa [ConsumerSide.keys, Link.settledKeys, hcalls, hwaiting] using hacc

/-- Three calls within a window of two: one is cancelled, one answered, one runs. -/
def threeCalls : List Act :=
  [.hello, .attach, .call 0, .call 0, .call 0, .arrive .runs, .arrive .runs, .arrive .runs,
    .cancel 0, .reply 1, .deliver, .arrive .runs, .arrive .runs]

def three : Link :=
  threeCalls.foldl Link.perform ⟨.new, .new 2⟩

theorem calls_settle_once_three :
    three.consumer.keys.Perm (range three.consumer.started) ∧
      three.consumer.window.inFlight ≤ (2 : ℕ) ∧ three.provider.closed ≠ some .tooManyCalls := by
  have hrun : (system 2).Along (fun _ _ => True) Link.perform ⟨.new, .new 2⟩ threeCalls :=
    ⟨⟨rfl, rfl⟩, trivial, ⟨rfl, rfl⟩, trivial, ⟨rfl, rfl⟩, trivial, ⟨rfl, rfl⟩, trivial, ⟨rfl, rfl⟩,
      trivial, ⟨rfl, rfl⟩, trivial, ⟨rfl, rfl⟩, trivial, ⟨rfl, rfl⟩, trivial, ⟨rfl, rfl⟩, trivial,
      ⟨rfl, rfl⟩, trivial, ⟨rfl, rfl⟩, trivial, ⟨rfl, rfl⟩, trivial, ⟨rfl, rfl⟩, trivial, trivial⟩
  have h := calls_settle_once ⟨⟨.new, .new 2⟩, rfl, hrun.steps⟩
  exact ⟨(h.1 rfl).1, (h.1 rfl).2.2.2.2, h.2.1.2.1⟩

example : three.provider.ledger.calls = [(2, 0)] := by decide

/-- The calls sent whose answer has not arrived. -/
def ConsumerSide.unanswered (c : ConsumerSide) : ℤ :=
  c.nextCall - (c.settled.filter (fun settled => settled.settlement = .answered)).length

/-- An abort frees the slot before the call is answered. -/
theorem abort_frees_slot :
    ¬ ∀ (limit : ℕ) (l : Link), (system limit).Reachable l → l.consumer.closed = false →
      l.consumer.window.inFlight = l.consumer.unanswered := by
  intro h
  have hrun : (system 1).Along (fun _ _ => True) Link.perform ⟨.new, .new 1⟩
      [.hello, .attach, .call 0, .cancel 0] :=
    ⟨⟨rfl, rfl⟩, trivial, ⟨rfl, rfl⟩, trivial, ⟨rfl, rfl⟩, trivial, ⟨rfl, rfl⟩, trivial, trivial⟩
  have hslots := h 1 _ ⟨⟨.new, .new 1⟩, rfl, hrun.steps⟩ rfl
  exact absurd hslots (by decide)

end KnightCode.Calls
