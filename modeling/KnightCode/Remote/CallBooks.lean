import KnightCode.Remote.Calls

/-!
# The consumer's books

Every call started is settled, waits or is in flight, and never two of these; the slots in use are
the calls in flight. The messages on the way lead the provider nowhere the consumer has not left
room for. While a hold is forgotten its calls in flight leave one by one: it is dying meanwhile.
-/

namespace KnightCode.Calls

open List

def callIds : List ToProvider → List ℕ
  | [] => []
  | .call id _ :: wire => id :: callIds wire
  | _ :: wire => callIds wire

def holdIds : List ToProvider → List ℕ
  | [] => []
  | .hold id :: wire => id :: holdIds wire
  | _ :: wire => holdIds wire

theorem callIds_append (wire wire' : List ToProvider) :
    callIds (wire ++ wire') = callIds wire ++ callIds wire' := by
  induction wire with
  | nil => rfl
  | cons message wire ih => cases message <;> simp [callIds, ih]

theorem holdIds_append (wire wire' : List ToProvider) :
    holdIds (wire ++ wire') = holdIds wire ++ holdIds wire' := by
  induction wire with
  | nil => rfl
  | cons message wire ih => cases message <;> simp [holdIds, ih]

variable {wire : List ToProvider}

theorem mem_holdIds {id : ℕ} :
    id ∈ holdIds wire ↔ ToProvider.hold id ∈ wire := by
  induction wire with
  | nil => simp [holdIds]
  | cons message wire ih => cases message <;> simp [holdIds, ih]

namespace Ledger
variable {wire : List ToProvider} {message : ToProvider}

/-- The ids of the calls it runs. -/
def ids (l : Ledger) : List ℕ :=
  l.calls.map Prod.fst

/-- A message handled with every call on a known hold run. -/
def see (l : Ledger) : ToProvider → Ledger
  | .hold id => { l with entries := l.entries ++ [id] }
  | .release id =>
    { entries := l.entries.filter (· ≠ id), calls := l.calls.filter (fun call => call.2 ≠ id) }
  | .call id hold => if hold ∈ l.entries then { l with calls := l.calls ++ [(id, hold)] } else l
  | .abort id => { l with calls := l.calls.filter (fun call => call.1 ≠ id) }

def track (l : Ledger) (wire : List ToProvider) : Ledger :=
  wire.foldl see l

/-- At no moment of the way more than `limit` calls run. -/
def Fits (limit : ℕ) : Ledger → List ToProvider → Prop
  | l, [] => l.calls.length ≤ limit
  | l, message :: wire => l.calls.length ≤ limit ∧ Fits limit (l.see message) wire

structure Within (l l' : Ledger) : Prop where
  entries : l.entries.Sublist l'.entries
  calls : l.calls.Sublist l'.calls

variable {l l' : Ledger} {limit : ℕ}

theorem see_call (id hold : ℕ) :
    l.see (.call id hold) =
      if hold ∈ l.entries then { l with calls := l.calls ++ [(id, hold)] } else l :=
  rfl

theorem Within.refl (l : Ledger) : l.Within l :=
  ⟨List.Sublist.refl _, List.Sublist.refl _⟩

theorem Within.see (h : l.Within l') (message : ToProvider) :
    (l.see message).Within (l'.see message) := by
  cases message with
  | hold id => exact ⟨h.entries.append (List.Sublist.refl _), h.calls⟩
  | release id => exact ⟨h.entries.filter _, h.calls.filter _⟩
  | call id hold =>
    rw [see_call, see_call]
    by_cases hk : hold ∈ l.entries
    · rw [if_pos hk, if_pos (h.entries.subset hk)]
      exact ⟨h.entries, h.calls.append (List.Sublist.refl _)⟩
    · rw [if_neg hk]
      split
      · exact ⟨h.entries, h.calls.trans (sublist_append_left _ _)⟩
      · exact h
  | abort id => exact ⟨h.entries, h.calls.filter _⟩

theorem Within.track (h : l.Within l') (wire : List ToProvider) :
    (l.track wire).Within (l'.track wire) := by
  induction wire generalizing l l' with
  | nil => exact h
  | cons message wire ih => exact ih (h.see message)

theorem Fits.mono (hf : Fits limit l' wire) (h : l.Within l') : Fits limit l wire := by
  induction wire generalizing l l' with
  | nil => exact h.calls.length_le.trans hf
  | cons message wire ih => exact ⟨h.calls.length_le.trans hf.1, ih hf.2 (h.see message)⟩

theorem Fits.head (hf : Fits limit l wire) : l.calls.length ≤ limit := by
  cases wire with
  | nil => exact hf
  | cons message wire => exact hf.1

theorem Fits.last (hf : Fits limit l wire) :
    (l.track wire).calls.length ≤ limit := by
  induction wire generalizing l with
  | nil => exact hf
  | cons message wire ih => exact ih hf.2

theorem Fits.concat (hf : Fits limit l wire)
    (hlast : (l.track (wire ++ [message])).calls.length ≤ limit) :
    Fits limit l (wire ++ [message]) := by
  induction wire generalizing l with
  | nil => exact ⟨hf, hlast⟩
  | cons first wire ih => exact ⟨hf.1, ih hf.2 hlast⟩

theorem track_concat (wire : List ToProvider) (message : ToProvider) :
    l.track (wire ++ [message]) = (l.track wire).see message := by
  simp [track]

theorem mem_see_entries {hold : ℕ} (h : hold ∈ (l.see message).entries) :
    hold ∈ l.entries ∨ message = .hold hold := by
  cases message with
  | hold id =>
    simp only [see, mem_append, mem_singleton] at h
    exact h.imp_right (fun h => by rw [h])
  | release id => exact .inl (mem_filter.mp h).1
  | call id hold =>
    rw [see_call] at h
    split at h <;> exact .inl h
  | abort id => exact .inl h

theorem mem_see_calls {call : ℕ × ℕ} (h : call ∈ (l.see message).calls) :
    call ∈ l.calls ∨ message = .call call.1 call.2 ∧ call.2 ∈ l.entries := by
  cases message with
  | hold id => exact .inl h
  | release id | abort id => exact .inl (mem_filter.mp h).1
  | call id hold =>
    rw [see_call] at h
    split at h
    · rename_i hk
      simp only [mem_append, mem_singleton] at h
      rcases h with h | rfl
      · exact .inl h
      · exact .inr ⟨rfl, hk⟩
    · exact .inl h

/-- What runs in the end ran before, or is a call on its way on a hold that is known or on its
way. -/
theorem mem_track_calls {call : ℕ × ℕ} (h : call ∈ (l.track wire).calls) :
    call ∈ l.calls ∨
      ToProvider.call call.1 call.2 ∈ wire ∧ (call.2 ∈ l.entries ∨ .hold call.2 ∈ wire) := by
  induction wire generalizing l with
  | nil => exact .inl h
  | cons message wire ih =>
    rcases ih h with h | ⟨hc, h⟩
    · rcases mem_see_calls h with h | ⟨hm, hk⟩
      · exact .inl h
      · exact .inr ⟨by simp [hm], .inl hk⟩
    · refine .inr ⟨mem_cons_of_mem _ hc, ?_⟩
      rcases h with h | h
      · exact (mem_see_entries h).imp_right (fun h => by simp [h])
      · exact .inr (mem_cons_of_mem _ h)

theorem ids_see (message : ToProvider) (wire : List ToProvider) :
    ((l.see message).ids ++ callIds wire).Sublist (l.ids ++ callIds (message :: wire)) := by
  cases message with
  | hold id => exact List.Sublist.refl _
  | release id | abort id => exact (filter_sublist.map Prod.fst).append (List.Sublist.refl _)
  | call id hold =>
    rw [see_call]
    split
    · simp [ids, callIds]
    · exact (List.Sublist.refl _).append (sublist_cons_self _ _)

theorem entries_see (message : ToProvider) (wire : List ToProvider) :
    ((l.see message).entries ++ holdIds wire).Sublist (l.entries ++ holdIds (message :: wire)) := by
  cases message with
  | hold id => simp [see, holdIds]
  | release id => exact filter_sublist.append (List.Sublist.refl _)
  | call id hold =>
    rw [see_call]
    split <;> exact List.Sublist.refl _
  | abort id => exact List.Sublist.refl _

theorem Within.ids (h : l.Within l') : l.ids.Sublist l'.ids :=
  h.calls.map Prod.fst

theorem ids_track (wire : List ToProvider) :
    (l.track wire).ids.Sublist (l.ids ++ callIds wire) := by
  induction wire generalizing l with
  | nil => simp [track, callIds]
  | cons message wire ih => exact (ih (l := l.see message)).trans (ids_see message wire)

end Ledger

/-! ### The books -/

/-- An earlier call and a later hold of the same id do not occur. -/
def ToProvider.Before (m m' : ToProvider) : Prop :=
  ∀ id hold, m = .call id hold → m' ≠ .hold hold

variable {message : ToProvider}

theorem order_concat {wire : List ToProvider} (h : wire.Pairwise ToProvider.Before)
    (hm : ∀ hold, message ≠ .hold hold) :
    (wire ++ [message]).Pairwise ToProvider.Before := by
  refine pairwise_append.mpr ⟨h, pairwise_singleton _ _, fun m _ m' hm' id hold _ => ?_⟩
  rw [mem_singleton.mp hm']
  exact hm hold

/-- How a call that was sent settles while the link is open. -/
def Settlement.Frees (settlement : Settlement) : Prop :=
  settlement ∈ [.answered, .aborted, .released, .gone]

namespace ConsumerSide
variable {id hold : ℕ} {more : List ToProvider} {settlement : Settlement}

/-- The calls in flight, each with its hold. -/
def pairs (c : ConsumerSide) : List (ℕ × ℕ) :=
  c.calls.map (fun call => (call.1, call.2.hold))

def ids (c : ConsumerSide) : List ℕ :=
  c.calls.map Prod.fst

/-- The keys of the calls started, each where it stands. -/
def keys (c : ConsumerSide) : List ℕ :=
  c.settled.map (fun settled => settled.call.key) ++ c.window.waiting.map OutgoingCall.key ++
    c.calls.map (fun call => call.2.key)

def sentSettled (c : ConsumerSide) : ℕ :=
  (c.settled.filter (fun settled => settled.id.isSome)).length

structure Books (dying : List ℕ) (c : ConsumerSide) : Prop where
  slots : c.window.inFlight = c.calls.length
  room : c.window.inFlight ≤ c.window.limit
  counted : c.nextCall = c.calls.length + c.sentSettled
  accounts : c.keys.Perm (range c.started)
  nodup : c.ids.Nodup
  idsLt : ∀ id ∈ c.ids, id < c.nextCall
  waitingHeld : ∀ call ∈ c.window.waiting, call.hold ∈ c.entries
  callsHeld : ∀ call ∈ c.calls, call.2.hold ∈ c.entries ∨ call.2.hold ∈ dying
  dead : ∀ hold ∈ dying, hold ∉ c.entries
  entriesLt : ∀ hold ∈ c.entries, hold < c.nextHold
  released : ∀ hold, .release hold ∈ c.wire → hold ∉ c.entries ∧ hold < c.nextHold
  aborted : ∀ id, .abort id ∈ c.wire → id ∉ c.ids ∧ id < c.nextCall
  callHolds : ∀ id hold, .call id hold ∈ c.wire → hold < c.nextHold
  order : c.wire.Pairwise ToProvider.Before
  causes : ∀ settled ∈ c.settled, settled.id.isSome = true → settled.settlement.Frees

/-- What holds of the messages on their way, also after the consumer's end closed. -/
structure Wired (limit : ℕ) (p : ProviderSide) (c : ConsumerSide) : Prop where
  fits : p.ledger.Fits limit c.wire
  nodup : (p.ledger.ids ++ callIds c.wire).Nodup
  idsLt : ∀ id ∈ p.ledger.ids ++ callIds c.wire, id < c.nextCall
  nodupHolds : (p.ledger.entries ++ holdIds c.wire).Nodup
  holdsLt : ∀ hold ∈ p.ledger.entries ++ holdIds c.wire, hold < c.nextHold
  replies : ∀ id, .reply id ∈ p.wire → id ∉ p.ledger.ids ++ callIds c.wire ∧ id < c.nextCall
  gone : ∀ hold, .gone hold ∈ p.wire →
    hold ∉ p.ledger.entries ++ holdIds c.wire ∧ hold < c.nextHold
  served : ∀ call ∈ p.ledger.calls, call.2 ∈ p.ledger.entries

/-- What the provider comes to run is in flight, and what is in flight comes to an end. -/
structure Tied (p : ProviderSide) (dying : List ℕ) (c : ConsumerSide) : Prop where
  tracked : ∀ call ∈ (p.ledger.track c.wire).calls, call ∈ c.pairs ∧ call.2 ∉ dying
  alive : p.closed = none → ∀ hold ∈ c.entries,
    hold ∈ p.ledger.entries ++ holdIds c.wire ∨ .gone hold ∈ p.wire
  underway : p.closed = none → ∀ call ∈ c.pairs, call.2 ∈ c.entries →
    .call call.1 call.2 ∈ c.wire ∨ call ∈ p.ledger.calls ∨ .reply call.1 ∈ p.wire ∨
      .gone call.2 ∈ p.wire

structure Keeps (limit : ℕ) (p : ProviderSide) (dying : List ℕ) (c : ConsumerSide) : Prop where
  books : c.Books dying
  bounded : c.window.limit ≤ limit
  wired : c.Wired limit p
  tied : c.Tied p dying
  unclosed : c.closed = false

variable {limit : ℕ} {p : ProviderSide} {dying : List ℕ} {c : ConsumerSide}

theorem Books.pairs_length (h : c.Books dying) (hl : c.window.limit ≤ limit) :
    c.pairs.length ≤ limit := by
  have hslots := h.slots
  have hroom := h.room
  simp only [pairs, length_map]
  omega

theorem fits_concat (hf : p.ledger.Fits limit c.wire)
    (hn : (p.ledger.ids ++ callIds (c.wire ++ [message])).Nodup) {pairs : List (ℕ × ℕ)}
    (ht : ∀ call ∈ (p.ledger.track (c.wire ++ [message])).calls, call ∈ pairs)
    (hlen : pairs.length ≤ limit) : p.ledger.Fits limit (c.wire ++ [message]) := by
  refine hf.concat ?_
  have hids : ((p.ledger.track (c.wire ++ [message])).ids).Nodup :=
    hn.sublist (Ledger.ids_track _)
  have hcalls : ((p.ledger.track (c.wire ++ [message])).calls).Nodup := hids.of_map _
  exact ((subperm_of_subset hcalls ht).length_le).trans hlen

/-! ### A call is sent -/

variable {rest : List OutgoingCall}

theorem Books.take {call : OutgoingCall} (h : c.Books dying) (hw : c.window.waiting = call :: rest)
    (hroom : c.window.inFlight < c.window.limit) :
    Books dying (take call { c with window := { c.window with waiting := rest } }) := by
  have hheld := h.waitingHeld call (by simp [hw])
  have hslots := h.slots
  have hcounted := h.counted
  refine ⟨?_, ?_, ?_, ?_, ?_, ?_, ?_, ?_, h.dead, h.entriesLt, ?_, ?_, ?_, ?_, h.causes⟩
  · simp only [ConsumerSide.take, length_append, length_singleton]
    omega
  · simp only [ConsumerSide.take]
    omega
  · simp only [ConsumerSide.take, length_append, length_singleton, sentSettled]
      at hcounted ⊢
    omega
  · refine List.Perm.trans ?_ h.accounts
    simp only [keys, ConsumerSide.take, hw, map_append, map_cons, map_nil, append_assoc]
    refine List.Perm.append_left _ ?_
    rw [← append_assoc]
    exact perm_append_singleton _ _
  · have hfresh : c.nextCall ∉ c.ids := fun hm => (h.idsLt _ hm).ne rfl
    have hids : ids (ConsumerSide.take call
        { c with window := { c.window with waiting := rest } }) = c.ids ++ [c.nextCall] := by
      simp [ids, ConsumerSide.take]
    rw [hids]
    exact h.nodup.append (nodup_singleton _) (by simpa using hfresh)
  · intro id hm
    simp only [ids, ConsumerSide.take, map_append, mem_append] at hm
    rcases hm with hm | hm
    · exact (h.idsLt id hm).trans (Nat.lt_succ_self _)
    · simp only [map_cons, map_nil, mem_singleton] at hm
      subst hm
      exact Nat.lt_succ_self _
  · intro call' hm
    exact h.waitingHeld call' (by rw [hw]; exact mem_cons_of_mem _ hm)
  · intro call' hm
    simp only [ConsumerSide.take, mem_append, mem_singleton] at hm
    rcases hm with hm | rfl
    · exact h.callsHeld call' hm
    · exact .inl hheld
  · intro hold hm
    simp only [ConsumerSide.take, mem_append, mem_singleton, reduceCtorEq, or_false] at hm
    exact h.released hold hm
  · intro id hm
    simp only [ConsumerSide.take, mem_append, mem_singleton, reduceCtorEq, or_false] at hm
    obtain ⟨hid, hlt⟩ := h.aborted id hm
    refine ⟨?_, hlt.trans (Nat.lt_succ_self _)⟩
    simp only [ids, ConsumerSide.take, map_append, mem_append, not_or]
    exact ⟨hid, by simpa using hlt.ne⟩
  · intro id hold hm
    simp only [ConsumerSide.take, mem_append, mem_singleton, ToProvider.call.injEq] at hm
    rcases hm with hm | ⟨-, rfl⟩
    · exact h.callHolds id hold hm
    · exact h.entriesLt _ hheld
  · exact order_concat h.order (by simp)

theorem Keeps.take {call : OutgoingCall} (h : c.Keeps limit p dying)
    (hw : c.window.waiting = call :: rest) (hroom : c.window.inFlight < c.window.limit) :
    Keeps limit p dying (take call { c with window := { c.window with waiting := rest } }) := by
  have hheld := h.books.waitingHeld call (by simp [hw])
  have hbooks := h.books.take hw hroom
  have hids : ∀ wire, callIds (wire ++ [.call c.nextCall call.hold]) =
      callIds wire ++ [c.nextCall] := fun wire => callIds_append _ _
  have hholds : ∀ wire, holdIds (wire ++ [.call c.nextCall call.hold]) = holdIds wire :=
    fun wire => by simp [holdIds_append, holdIds]
  have hnodup : (p.ledger.ids ++ callIds (c.wire ++ [.call c.nextCall call.hold])).Nodup := by
    rw [hids, ← append_assoc]
    refine h.wired.nodup.append (nodup_singleton _) ?_
    simpa using fun hm => (h.wired.idsLt _ hm).ne rfl
  have htracked : ∀ pair ∈ (p.ledger.track (c.wire ++ [.call c.nextCall call.hold])).calls,
      pair ∈ c.pairs ++ [(c.nextCall, call.hold)] ∧ pair.2 ∉ dying := by
    intro pair hm
    rw [Ledger.track_concat] at hm
    rcases Ledger.mem_see_calls hm with hm | ⟨heq, -⟩
    · obtain ⟨hp, hd⟩ := h.tied.tracked pair hm
      exact ⟨mem_append_left _ hp, hd⟩
    · simp only [ToProvider.call.injEq] at heq
      refine ⟨mem_append_right _ ?_, ?_⟩
      · simp [heq.1, heq.2]
      · rw [← heq.2]
        exact fun hd => h.books.dead _ hd hheld
  have hpairs : pairs (ConsumerSide.take call
      { c with window := { c.window with waiting := rest } }) =
      c.pairs ++ [(c.nextCall, call.hold)] := by
    simp [pairs, ConsumerSide.take]
  refine ⟨hbooks, h.bounded, ⟨?_, hnodup, ?_, ?_, ?_, ?_, ?_, h.wired.served⟩, ⟨?_, ?_, ?_⟩,
    h.unclosed⟩
  · refine fits_concat h.wired.fits hnodup (fun pair hm => (htracked pair hm).1) ?_
    rw [← hpairs]
    exact hbooks.pairs_length h.bounded
  · intro id hm
    simp only [ConsumerSide.take, hids, ← append_assoc] at hm
    rcases mem_append.mp hm with hm | hm
    · exact (h.wired.idsLt id hm).trans (Nat.lt_succ_self _)
    · rw [mem_singleton.mp hm]
      exact Nat.lt_succ_self _
  · simpa only [ConsumerSide.take, hholds] using h.wired.nodupHolds
  · simpa only [ConsumerSide.take, hholds] using h.wired.holdsLt
  · intro id hm
    obtain ⟨hid, hlt⟩ := h.wired.replies id hm
    refine ⟨?_, hlt.trans (Nat.lt_succ_self _)⟩
    simp only [ConsumerSide.take, hids, ← append_assoc]
    rw [mem_append, not_or]
    exact ⟨hid, by simpa using hlt.ne⟩
  · simpa only [ConsumerSide.take, hholds] using h.wired.gone
  · rw [hpairs]
    exact htracked
  · simpa only [ConsumerSide.take, hholds] using h.tied.alive
  · intro hp pair hm hentry
    rw [hpairs] at hm
    rcases mem_append.mp hm with hm | hm
    · rcases h.tied.underway hp pair hm hentry with hu | hu
      · exact .inl (mem_append_left _ hu)
      · exact .inr hu
    · rw [mem_singleton.mp hm]
      exact .inl (mem_append_right _ (mem_singleton.mpr rfl))

theorem Keeps.drainList {waiting : List OutgoingCall}
    (h : Keeps limit p dying { c with window := { c.window with waiting } }) :
    (drainList waiting c).Keeps limit p dying ∧
      ((drainList waiting c).window.waiting = [] ∨
        (drainList waiting c).window.limit ≤ (drainList waiting c).window.inFlight) := by
  induction waiting generalizing c with
  | nil => exact ⟨h, .inl rfl⟩
  | cons call rest ih =>
    rw [ConsumerSide.drainList]
    by_cases hfull : (c.window.limit : ℤ) ≤ c.window.inFlight
    · rw [if_pos hfull]
      exact ⟨h, .inr hfull⟩
    · rw [if_neg hfull]
      refine ih ?_
      exact h.take rfl (by simpa using hfull)

theorem Keeps.drain (h : c.Keeps limit p dying) :
    c.drain.Keeps limit p dying ∧
      (c.drain.window.waiting = [] ∨ c.drain.window.limit ≤ c.drain.window.inFlight) :=
  Keeps.drainList h

/-! ### A call leaves the table -/

/-- What follows the reply of a call, or its abort. -/
def Closes (p : ProviderSide) (id : ℕ) (more : List ToProvider) (c : ConsumerSide) : Prop :=
  more = [] ∧ id ∉ (p.ledger.track c.wire).ids ∨ more = [.abort id]

/-- The wire as the provider's books read it: no call and no hold more. -/
structure Quiet (limit : ℕ) (p : ProviderSide) (more : List ToProvider) (c : ConsumerSide) : Prop where
  callIds : Calls.callIds (c.wire ++ more) = Calls.callIds c.wire
  holdIds : Calls.holdIds (c.wire ++ more) = Calls.holdIds c.wire
  fits : p.ledger.Fits limit (c.wire ++ more)

theorem Quiet.nil (h : c.Wired limit p) : c.Quiet limit p [] := by
  refine ⟨?_, ?_, ?_⟩ <;> rw [append_nil]
  exact h.fits

theorem Quiet.concat (h : c.Wired limit p)
    (hm : (∃ id, message = .abort id) ∨ ∃ hold, message = .release hold) :
    c.Quiet limit p [message] := by
  rcases hm with ⟨id, rfl⟩ | ⟨hold, rfl⟩
  all_goals
    refine ⟨by simp [callIds_append, Calls.callIds], by simp [holdIds_append, Calls.holdIds],
      h.fits.concat ?_⟩
    rw [Ledger.track_concat]
    exact (length_filter_le _ _).trans h.fits.last

theorem Closes.quiet (h : c.Closes p id more) (hw : c.Wired limit p) : c.Quiet limit p more := by
  rcases h with ⟨rfl, -⟩ | rfl
  · exact .nil hw
  · exact .concat hw (.inl ⟨id, rfl⟩)

theorem Closes.track (h : c.Closes p id more) :
    ∀ call ∈ (p.ledger.track (c.wire ++ more)).calls,
      call ∈ (p.ledger.track c.wire).calls ∧ call.1 ≠ id := by
  intro call hm
  rcases h with ⟨rfl, hid⟩ | rfl
  · rw [append_nil] at hm
    refine ⟨hm, ?_⟩
    rintro rfl
    exact hid (mem_map_of_mem hm)
  · rw [Ledger.track_concat] at hm
    obtain ⟨hm, hne⟩ := mem_filter.mp hm
    exact ⟨hm, by simpa using hne⟩

variable {settlement : Settlement} {more : List ToProvider}

theorem Books.drop {id : ℕ} {call : OutgoingCall} (h : c.Books dying)
    (hg : Assoc.get id c.calls = some call) (hs : settlement.Frees)
    (hmore : more = [] ∨ more = [.abort id]) :
    Books dying { c with
      calls := Assoc.erase id c.calls
      settled := c.settled ++ [⟨call, some id, settlement⟩]
      window := { c.window with inFlight := c.window.inFlight - 1 }
      wire := c.wire ++ more } := by
  have hperm : c.calls.Perm ((id, call) :: Assoc.erase id c.calls) := Assoc.perm_erase h.nodup hg
  have hlen := hperm.length_eq
  have hslots := h.slots
  have hcounted := h.counted
  have hroom := h.room
  have hsub : (Assoc.erase id c.calls).Sublist c.calls := Assoc.erase_sublist id c.calls
  have hids : (Assoc.erase id c.calls).map Prod.fst ⊆ c.ids := (hsub.map Prod.fst).subset
  have hid : id ∈ c.ids := mem_map_of_mem (Assoc.mem_of_get hg)
  have hnot : id ∉ (Assoc.erase id c.calls).map Prod.fst := by
    intro hm
    obtain ⟨e, he, rfl⟩ := mem_map.mp hm
    exact (Assoc.mem_erase.mp he).1 rfl
  rw [length_cons] at hlen
  refine ⟨?_, ?_, ?_, ?_, h.nodup.sublist (hsub.map Prod.fst),
    fun id' hm => h.idsLt id' (hids hm), h.waitingHeld,
    fun call' hm => h.callsHeld call' (hsub.subset hm), h.dead, h.entriesLt, ?_, ?_, ?_, ?_, ?_⟩
  · simp only
    omega
  · simp only
    omega
  · simp only [sentSettled, filter_append, length_append] at hcounted ⊢
    simp only [filter_cons, Option.isSome_some, if_true, filter_nil, length_singleton]
    omega
  · refine List.Perm.trans ?_ h.accounts
    have hkeys := hperm.map (fun call => call.2.key)
    rw [map_cons] at hkeys
    simp only [keys, map_append, map_cons, map_nil, append_assoc, singleton_append]
    refine List.Perm.append_left _ ?_
    refine List.Perm.trans ?_ (List.Perm.append_left _ hkeys.symm)
    exact perm_middle.symm
  · intro hold hm
    refine h.released hold ?_
    rcases hmore with rfl | rfl <;> simpa using hm
  · intro id' hm
    rcases mem_append.mp hm with hm | hm
    · obtain ⟨hn, hlt⟩ := h.aborted id' hm
      exact ⟨fun hm => hn (hids hm), hlt⟩
    · rcases hmore with rfl | rfl
      · cases hm
      · simp only [mem_singleton, ToProvider.abort.injEq] at hm
        subst hm
        exact ⟨hnot, h.idsLt _ hid⟩
  · intro id' hold hm
    refine h.callHolds id' hold ?_
    rcases hmore with rfl | rfl <;> simpa using hm
  · rcases hmore with rfl | rfl
    · simpa using h.order
    · exact order_concat h.order (by simp)
  · intro settled hm hsome
    rcases mem_append.mp hm with hm | hm
    · exact h.causes settled hm hsome
    · rw [mem_singleton.mp hm]
      exact hs

theorem Wired.drop {c' : ConsumerSide} (h : c.Wired limit p) (hq : c.Quiet limit p more)
    (hwire : c'.wire = c.wire ++ more) (hcall : c'.nextCall = c.nextCall)
    (hhold : c'.nextHold = c.nextHold) : c'.Wired limit p := by
  refine ⟨?_, ?_, ?_, ?_, ?_, ?_, ?_, h.served⟩ <;> rw [hwire]
  · exact hq.fits
  · rw [hq.callIds]
    exact h.nodup
  · rw [hq.callIds, hcall]
    exact h.idsLt
  · rw [hq.holdIds]
    exact h.nodupHolds
  · rw [hq.holdIds, hhold]
    exact h.holdsLt
  · rw [hq.callIds, hcall]
    exact h.replies
  · rw [hq.holdIds, hhold]
    exact h.gone

theorem Tied.drop {c' : ConsumerSide} (h : c.Tied p dying) (hcl : c.Closes p id more)
    (hq : c.Quiet limit p more) (hwire : c'.wire = c.wire ++ more)
    (hcalls : c'.calls = Assoc.erase id c.calls) (hentries : c'.entries = c.entries) :
    c'.Tied p dying := by
  have hpairs : ∀ pair, pair ∈ c'.pairs ↔ pair.1 ≠ id ∧ pair ∈ c.pairs := by
    intro pair
    simp only [pairs, hcalls, mem_map, Assoc.mem_erase]
    constructor
    · rintro ⟨call, ⟨hne, hm⟩, rfl⟩
      exact ⟨hne, call, hm, rfl⟩
    · rintro ⟨hne, call, hm, rfl⟩
      exact ⟨call, ⟨hne, hm⟩, rfl⟩
  refine ⟨?_, ?_, ?_⟩
  · intro pair hm
    rw [hwire] at hm
    obtain ⟨hm, hne⟩ := hcl.track pair hm
    obtain ⟨hp, hd⟩ := h.tracked pair hm
    exact ⟨(hpairs pair).mpr ⟨hne, hp⟩, hd⟩
  · rw [hwire, hq.holdIds, hentries]
    exact h.alive
  · intro hp pair hm hentry
    rw [hentries] at hentry
    rw [hwire]
    refine (h.underway hp pair ((hpairs pair).mp hm).2 hentry).imp_left ?_
    exact fun hm => mem_append_left _ hm

theorem Keeps.drop {id : ℕ} {call : OutgoingCall} (h : c.Keeps limit p dying)
    (hg : Assoc.get id c.calls = some call) (hs : settlement.Frees) (hcl : c.Closes p id more) :
    Keeps limit p dying { c with
      calls := Assoc.erase id c.calls
      settled := c.settled ++ [⟨call, some id, settlement⟩]
      window := { c.window with inFlight := c.window.inFlight - 1 }
      wire := c.wire ++ more } :=
  ⟨h.books.drop hg hs (hcl.imp_left And.left), h.bounded, h.wired.drop (hcl.quiet h.wired) rfl rfl
    rfl, h.tied.drop hcl (hcl.quiet h.wired) rfl rfl rfl, h.unclosed⟩

/-- Nothing waits or no slot is free. -/
def Conserving (c : ConsumerSide) : Prop :=
  c.window.waiting = [] ∨ c.window.limit ≤ c.window.inFlight

variable (waiting : List OutgoingCall)

theorem settle_drainList (call : OutgoingCall) (id : Option ℕ) (settlement : Settlement)
    (c : ConsumerSide) :
    (drainList waiting c).settle call id settlement =
      drainList waiting (c.settle call id settlement) := by
  induction waiting generalizing c with
  | nil => rfl
  | cons first rest ih =>
    rw [ConsumerSide.drainList, ConsumerSide.drainList]
    by_cases hfull : (c.window.limit : ℤ) ≤ c.window.inFlight
    · have hfull' : ((c.settle call id settlement).window.limit : ℤ) ≤
          (c.settle call id settlement).window.inFlight := hfull
      rw [if_pos hfull, if_pos hfull']
      rfl
    · have hfull' : ¬((c.settle call id settlement).window.limit : ℤ) ≤
          (c.settle call id settlement).window.inFlight := hfull
      rw [if_neg hfull, if_neg hfull', ih]
      rfl

theorem settle_remove (id : ℕ) (call : OutgoingCall) (id' : Option ℕ) (settlement : Settlement)
    (c : ConsumerSide) :
    (c.remove id).settle call id' settlement = (c.settle call id' settlement).remove id :=
  settle_drainList _ _ _ _ _

theorem mem_calls_drainList {waiting : List OutgoingCall} {call : ℕ × OutgoingCall}
    (h : call ∈ (drainList waiting c).calls) : call ∈ c.calls ∨ call.2 ∈ waiting := by
  induction waiting generalizing c with
  | nil => exact .inl h
  | cons first rest ih =>
    rw [ConsumerSide.drainList] at h
    split at h
    · exact .inl h
    · rcases ih h with h | h
      · simp only [ConsumerSide.take, mem_append, mem_singleton] at h
        rcases h with h | rfl
        · exact .inl h
        · exact .inr mem_cons_self
      · exact .inr (mem_cons_of_mem _ h)

theorem calls_drainList_subset : c.calls ⊆ (drainList waiting c).calls := by
  induction waiting generalizing c with
  | nil => exact fun _ h => h
  | cons first rest ih =>
    rw [ConsumerSide.drainList]
    split
    · exact fun _ h => h
    · exact fun call h => ih (mem_append_left _ h)

theorem entries_drainList : (drainList waiting c).entries = c.entries := by
  induction waiting generalizing c with
  | nil => rfl
  | cons first rest ih =>
    rw [ConsumerSide.drainList]
    split
    · rfl
    · exact ih

theorem Keeps.remove {call : OutgoingCall} (h : c.Keeps limit p dying)
    (hg : Assoc.get id c.calls = some call) (hs : settlement.Frees)
    (hid : id ∉ (p.ledger.track c.wire).ids) :
    ((c.remove id).settle call (some id) settlement).Keeps limit p dying ∧
      ((c.remove id).settle call (some id) settlement).Conserving := by
  have hcl : c.Closes p id [] := .inl ⟨rfl, hid⟩
  have hdrop := h.drop hg hs hcl
  simp only [append_nil] at hdrop
  rw [settle_remove]
  exact hdrop.drain

theorem Keeps.abort {call : OutgoingCall} (h : c.Keeps limit p dying)
    (hg : Assoc.get id c.calls = some call) :
    ((freed { c with calls := Assoc.erase id c.calls, wire := c.wire ++ [.abort id] }).settle call
        (some id) .aborted).Keeps limit p dying ∧
      ((freed { c with calls := Assoc.erase id c.calls, wire := c.wire ++ [.abort id] }).settle call
        (some id) .aborted).Conserving := by
  have hcl : c.Closes p id [.abort id] := .inr rfl
  have hs : Settlement.aborted.Frees := by simp [Settlement.Frees]
  have hdrop := h.drop hg hs hcl
  rw [freed, ConsumerSide.drain, settle_drainList]
  exact hdrop.drain

/-! ### Waiting calls are rejected -/

theorem settle_waiting (calls : List OutgoingCall) (settlement : Settlement) (c : ConsumerSide) :
    calls.foldl (fun c call => c.settle call none settlement) c =
      { c with settled := c.settled ++ calls.map (fun call => ⟨call, none, settlement⟩) } := by
  induction calls generalizing c with
  | nil => simp
  | cons call calls ih =>
    rw [foldl_cons, ih]
    simp [settle]

theorem settle_sent (calls : List (ℕ × OutgoingCall)) (settlement : Settlement) (c : ConsumerSide) :
    calls.foldl (fun c call => c.settle call.2 (some call.1) settlement) c =
      { c with
        settled := c.settled ++ calls.map (fun call => ⟨call.2, some call.1, settlement⟩) } := by
  induction calls generalizing c with
  | nil => simp
  | cons call calls ih =>
    rw [foldl_cons, ih]
    simp [settle]

theorem Keeps.reject (keep : OutgoingCall → Bool) (settlement : Settlement)
    (h : c.Keeps limit p dying) :
    Keeps limit p dying { c with
      window := { c.window with waiting := c.window.waiting.filter keep }
      settled := c.settled ++
        (c.window.waiting.filter (fun call => !keep call)).map
          (fun call => ⟨call, none, settlement⟩) } := by
  refine { h with
    books := { h.books with counted := ?_, accounts := ?_, waitingHeld := ?_, causes := ?_ }
    wired := { h.wired with }
    tied := { h.tied with } }
  · have hcounted := h.books.counted
    simp only [sentSettled, filter_append, length_append] at hcounted ⊢
    rw [hcounted, filter_map]
    simp
  · refine List.Perm.trans ?_ h.books.accounts
    simp only [keys, map_append, map_map, append_assoc]
    refine List.Perm.append_left _ ?_
    rw [← append_assoc]
    refine List.Perm.append_right _ ?_
    have hperm := filter_append_perm (fun call => !keep call) c.window.waiting
    simp only [Bool.not_not] at hperm
    have hkeys := hperm.map OutgoingCall.key
    rw [map_append] at hkeys
    exact hkeys
  · intro call hm
    exact h.books.waitingHeld call (mem_filter.mp hm).1
  · intro settled hm hsome
    rcases mem_append.mp hm with hm | hm
    · exact h.books.causes settled hm hsome
    · obtain ⟨call, -, rfl⟩ := mem_map.mp hm
      cases hsome

theorem Conserving.reject (keep : OutgoingCall → Bool) (settled : List Settled) (h : c.Conserving) :
    Conserving { c with
      window := { c.window with waiting := c.window.waiting.filter keep }
      settled } := by
  refine h.imp_left ?_
  intro hw
  change c.window.waiting.filter keep = []
  rw [hw]
  rfl

theorem rejectWaiting_eq (hold : ℕ) (settlement : Settlement) (c : ConsumerSide) :
    c.rejectWaiting hold settlement = { c with
      window := { c.window with
        waiting := c.window.waiting.filter (fun call => decide (call.hold ≠ hold)) }
      settled := c.settled ++
        (c.window.waiting.filter (fun call => !decide (call.hold ≠ hold))).map
          (fun call => ⟨call, none, settlement⟩) } := by
  rw [rejectWaiting, settle_waiting]
  simp

theorem Keeps.rejectWaiting (h : c.Keeps limit p dying) (hold : ℕ) (settlement : Settlement) :
    (c.rejectWaiting hold settlement).Keeps limit p dying := by
  rw [rejectWaiting_eq]
  exact h.reject _ _

theorem Conserving.rejectWaiting (h : c.Conserving) (hold : ℕ) (settlement : Settlement) :
    (c.rejectWaiting hold settlement).Conserving := by
  rw [rejectWaiting_eq]
  exact h.reject _ _

/-! ### A hold is forgotten -/

theorem settle_sent_removed (failed : List (ℕ × OutgoingCall)) (settlement : Settlement)
    (c : ConsumerSide) :
    failed.foldl (fun c call => c.settle call.2 (some call.1) settlement)
        (failed.foldl (fun c call => c.remove call.1) c) =
      failed.foldl (fun c call => (c.remove call.1).settle call.2 (some call.1) settlement) c := by
  have hcomm : ∀ (failed : List (ℕ × OutgoingCall)) (call : OutgoingCall) (id : Option ℕ)
      (c : ConsumerSide),
      failed.foldl (fun c call => c.remove call.1) (c.settle call id settlement) =
        (failed.foldl (fun c call => c.remove call.1) c).settle call id settlement := by
    intro failed
    induction failed with
    | nil => exact fun _ _ _ => rfl
    | cons head failed ih =>
      intro call id c
      rw [foldl_cons, foldl_cons, ← ih, settle_remove]
  induction failed generalizing c with
  | nil => rfl
  | cons head failed ih =>
    rw [foldl_cons, foldl_cons, foldl_cons, ← ih, hcomm]

theorem settle_waiting_removed (failed : List (ℕ × OutgoingCall)) (waiting : List OutgoingCall)
    (settlement : Settlement) (c : ConsumerSide) :
    waiting.foldl (fun c call => c.settle call none settlement)
        (failed.foldl (fun c call => c.remove call.1) c) =
      failed.foldl (fun c call => c.remove call.1)
        (waiting.foldl (fun c call => c.settle call none settlement) c) := by
  have hcomm : ∀ (waiting : List OutgoingCall) (id : ℕ) (c : ConsumerSide),
      waiting.foldl (fun c call => c.settle call none settlement) (c.remove id) =
        (waiting.foldl (fun c call => c.settle call none settlement) c).remove id := by
    intro waiting
    induction waiting with
    | nil => exact fun _ _ => rfl
    | cons call waiting ih =>
      intro id c
      rw [foldl_cons, foldl_cons, settle_remove, ih]
  induction failed generalizing c with
  | nil => rfl
  | cons head failed ih => rw [foldl_cons, foldl_cons, ih, hcomm]

theorem failCalls_eq (hold : ℕ) (settlement : Settlement) (c : ConsumerSide) :
    c.failCalls hold settlement =
      (c.calls.filter (fun call => call.2.hold = hold)).foldl
        (fun c call => (c.remove call.1).settle call.2 (some call.1) settlement)
        (c.rejectWaiting hold settlement) := by
  rw [failCalls, settle_waiting_removed, settle_sent_removed, rejectWaiting]

theorem Keeps.fail {failed : List (ℕ × OutgoingCall)} (h : c.Keeps limit p [hold])
    (hcons : c.Conserving) (hs : settlement.Frees)
    (hfailed : ∀ call ∈ failed, call ∈ c.calls ∧ call.2.hold = hold)
    (hnodup : (failed.map Prod.fst).Nodup)
    (hall : ∀ call ∈ c.calls, call.2.hold = hold → call ∈ failed) :
    (failed.foldl (fun c call => (c.remove call.1).settle call.2 (some call.1) settlement)
        c).Keeps limit p [] ∧
      (failed.foldl (fun c call => (c.remove call.1).settle call.2 (some call.1) settlement)
        c).Conserving := by
  induction failed generalizing c with
  | nil =>
    refine ⟨{ h with
      books := { h.books with callsHeld := ?_, dead := by simp }
      tied := { h.tied with tracked := ?_ } }, hcons⟩
    · intro call hm
      refine (h.books.callsHeld call hm).imp_right ?_
      intro hd
      exact absurd (hall call hm (mem_singleton.mp hd)) (by simp)
    · intro call hm
      exact ⟨(h.tied.tracked call hm).1, by simp⟩
  | cons head failed ih =>
    obtain ⟨hin, hhold⟩ := hfailed head mem_cons_self
    rw [map_cons, nodup_cons] at hnodup
    have hg : Assoc.get head.1 c.calls = some head.2 := Assoc.get_of_mem h.books.nodup hin
    have hid : head.1 ∉ (p.ledger.track c.wire).ids := by
      intro hm
      obtain ⟨pair, hpair, heq⟩ := mem_map.mp hm
      obtain ⟨hp, hd⟩ := h.tied.tracked pair hpair
      obtain ⟨call, hcall, rfl⟩ := mem_map.mp hp
      have hsame := Assoc.get_of_mem h.books.nodup (show (call.1, call.2) ∈ c.calls from hcall)
      rw [show call.1 = head.1 from heq, hg, Option.some.injEq] at hsame
      exact hd (by simp [← hsame, hhold])
    obtain ⟨hkeeps, hcons'⟩ := h.remove hg hs hid
    rw [foldl_cons]
    have herase : ∀ call, call ∈ Assoc.erase head.1 c.calls →
        call ∈ ((c.remove head.1).settle head.2 (some head.1) settlement).calls :=
      fun call hm => calls_drainList_subset _ hm
    refine ih hkeeps hcons' ?_ hnodup.2 ?_
    · intro call hm
      obtain ⟨hc, hh⟩ := hfailed call (mem_cons_of_mem _ hm)
      refine ⟨herase call (Assoc.mem_erase.mpr ⟨?_, hc⟩), hh⟩
      intro heq
      exact hnodup.1 (heq ▸ mem_map_of_mem hm)
    · intro call hm hh
      have hm' : call ∈ (ConsumerSide.drainList c.window.waiting
          { c with
            calls := Assoc.erase head.1 c.calls
            window := { c.window with inFlight := c.window.inFlight - 1 } }).calls := hm
      rcases mem_calls_drainList hm' with hm | hm
      · obtain ⟨hne, hm⟩ := Assoc.mem_erase.mp hm
        refine (mem_cons.mp (hall call hm hh)).resolve_left ?_
        rintro rfl
        exact hne rfl
      · have hheld := h.books.waitingHeld call.2 hm
        rw [hh] at hheld
        exact absurd hheld (h.books.dead hold (mem_singleton.mpr rfl))

/-- What makes the provider drop a hold: its release, or that it is gone there. -/
def Parts (p : ProviderSide) (hold : ℕ) (more : List ToProvider) (c : ConsumerSide) : Prop :=
  more = [] ∧ hold ∉ p.ledger.entries ++ holdIds c.wire ∨ more = [.release hold] ∧ hold ∈ c.entries

theorem Books.die (h : c.Books []) (hp : c.Parts p hold more)
    (hw : ∀ call ∈ c.window.waiting, call.hold ≠ hold) :
    Books [hold] { c with entries := c.entries.filter (· ≠ hold), wire := c.wire ++ more } := by
  have hsub : ∀ hold', hold' ∈ c.entries.filter (· ≠ hold) → hold' ∈ c.entries :=
    fun _ hm => (mem_filter.mp hm).1
  refine ⟨h.slots, h.room, h.counted, h.accounts, h.nodup, h.idsLt, ?_, ?_, ?_,
    fun hold' hm => h.entriesLt hold' (hsub hold' hm), ?_, ?_, ?_, ?_, h.causes⟩
  · intro call hm
    exact mem_filter.mpr ⟨h.waitingHeld call hm, by simpa using hw call hm⟩
  · intro call hm
    have hheld := (h.callsHeld call hm).resolve_right (by simp)
    by_cases heq : call.2.hold = hold
    · exact .inr (by simp [heq])
    · exact .inl (mem_filter.mpr ⟨hheld, by simpa using heq⟩)
  · intro hold' hm
    rw [mem_singleton.mp hm]
    simp
  · intro hold' hm
    rcases mem_append.mp hm with hm | hm
    · obtain ⟨hn, hlt⟩ := h.released hold' hm
      exact ⟨fun hm => hn (hsub hold' hm), hlt⟩
    · rcases hp with ⟨rfl, -⟩ | ⟨rfl, hentry⟩
      · cases hm
      · simp only [mem_singleton, ToProvider.release.injEq] at hm
        subst hm
        exact ⟨by simp, h.entriesLt _ hentry⟩
  · intro id hm
    refine h.aborted id ?_
    rcases hp with ⟨rfl, -⟩ | ⟨rfl, -⟩ <;> simpa using hm
  · intro id hold' hm
    refine h.callHolds id hold' ?_
    rcases hp with ⟨rfl, -⟩ | ⟨rfl, -⟩ <;> simpa using hm
  · rcases hp with ⟨rfl, -⟩ | ⟨rfl, -⟩
    · simpa using h.order
    · exact order_concat h.order (by simp)

theorem Parts.quiet (h : c.Parts p hold more) (hw : c.Wired limit p) : c.Quiet limit p more := by
  rcases h with ⟨rfl, -⟩ | ⟨rfl, -⟩
  · exact .nil hw
  · exact .concat hw (.inr ⟨hold, rfl⟩)

theorem Keeps.die (h : c.Keeps limit p []) (hp : c.Parts p hold more)
    (hw : ∀ call ∈ c.window.waiting, call.hold ≠ hold) :
    Keeps limit p [hold] { c with
      entries := c.entries.filter (· ≠ hold), wire := c.wire ++ more } := by
  refine ⟨h.books.die hp hw, h.bounded, h.wired.drop (hp.quiet h.wired) rfl rfl rfl,
    ⟨?_, ?_, ?_⟩, h.unclosed⟩
  · intro call hm
    rcases hp with ⟨rfl, hgone⟩ | ⟨rfl, -⟩
    · simp only [append_nil] at hm
      refine ⟨(h.tied.tracked call hm).1, ?_⟩
      simp only [mem_append, not_or] at hgone
      intro hd
      rw [mem_singleton] at hd
      rcases Ledger.mem_track_calls hm with hm | ⟨-, hm | hm⟩
      · exact hgone.1 (hd ▸ h.wired.served call hm)
      · exact hgone.1 (hd ▸ hm)
      · exact hgone.2 (mem_holdIds.mpr (hd ▸ hm))
    · simp only [Ledger.track_concat] at hm
      obtain ⟨hm, hne⟩ := mem_filter.mp hm
      exact ⟨(h.tied.tracked call hm).1, by simpa using hne⟩
  · intro hopen hold' hm
    simpa only [(hp.quiet h.wired).holdIds] using h.tied.alive hopen hold' (mem_filter.mp hm).1
  · intro hopen pair hm hentry
    refine (h.tied.underway hopen pair hm (mem_filter.mp hentry).1).imp_left ?_
    exact fun hm => mem_append_left _ hm

theorem Keeps.forget (h : c.Keeps limit p []) (hcons : c.Conserving) (hp : c.Parts p hold more)
    (hs : settlement.Frees) :
    (forget hold settlement { c with wire := c.wire ++ more }).Keeps limit p [] ∧
      (forget hold settlement { c with wire := c.wire ++ more }).Conserving := by
  have hwaiting : ∀ call ∈ (c.rejectWaiting hold settlement).window.waiting, call.hold ≠ hold := by
    intro call hm
    rw [rejectWaiting_eq] at hm
    simpa using (mem_filter.mp hm).2
  have hrejected : (c.rejectWaiting hold settlement).Parts p hold more := by
    rw [rejectWaiting_eq]
    exact hp
  have hdie := (h.rejectWaiting hold settlement).die hrejected hwaiting
  rw [ConsumerSide.forget, failCalls_eq]
  have heq : ConsumerSide.rejectWaiting hold settlement
        { c with entries := c.entries.filter (· ≠ hold), wire := c.wire ++ more } =
      { c.rejectWaiting hold settlement with
        entries := (c.rejectWaiting hold settlement).entries.filter (· ≠ hold)
        wire := (c.rejectWaiting hold settlement).wire ++ more } := by
    rw [rejectWaiting_eq, rejectWaiting_eq]
  have hcalls : (c.rejectWaiting hold settlement).calls = c.calls := by rw [rejectWaiting_eq]
  rw [heq]
  refine hdie.fail ?_ hs ?_ ?_ ?_
  · exact hcons.rejectWaiting hold settlement
  · intro call hm
    obtain ⟨hm, hh⟩ := mem_filter.mp hm
    refine ⟨?_, by simpa using hh⟩
    change call ∈ (c.rejectWaiting hold settlement).calls
    rw [hcalls]
    exact hm
  · exact h.books.nodup.sublist (filter_sublist.map Prod.fst)
  · intro call hm hh
    change call ∈ (c.rejectWaiting hold settlement).calls at hm
    rw [hcalls] at hm
    exact mem_filter.mpr ⟨hm, by simpa using hh⟩

/-! ### The operations of an open consumer -/

/-- An open consumer between two steps. -/
structure Steady (limit : ℕ) (p : ProviderSide) (c : ConsumerSide) : Prop where
  keeps : c.Keeps limit p []
  conserving : c.Conserving

theorem Steady.release (h : c.Steady limit p) (hold : ℕ) : (c.release hold).Steady limit p := by
  unfold ConsumerSide.release
  by_cases hentry : hold ∈ c.entries
  · rw [if_pos hentry]
    have hs : Settlement.released.Frees := by simp [Settlement.Frees]
    obtain ⟨hk, hc⟩ := h.keeps.forget h.conserving (.inr ⟨rfl, hentry⟩) hs
    exact ⟨hk, hc⟩
  · rw [if_neg hentry]
    exact h

theorem Steady.rejectWaiting (h : c.Steady limit p) (hold : ℕ) (settlement : Settlement) :
    (c.rejectWaiting hold settlement).Steady limit p :=
  ⟨h.keeps.rejectWaiting hold settlement, h.conserving.rejectWaiting hold settlement⟩

theorem Steady.opened (h : c.Steady limit p) : (c.opened limit).Steady limit p := by
  have hroom := h.keeps.books.room
  have hbounded := h.keeps.bounded
  have hk : Keeps limit p [] { c with window := { c.window with limit } } := by
    refine { h.keeps with
      books := { h.keeps.books with room := ?_ }
      bounded := le_refl _
      wired := { h.keeps.wired with }
      tied := { h.keeps.tied with } }
    simp only
    omega
  exact ⟨hk.drain.1, hk.drain.2⟩

theorem Keeps.enqueue (h : c.Keeps limit p []) (hentry : hold ∈ c.entries) :
    Keeps limit p [] { c with
      started := c.started + 1
      window := { c.window with waiting := c.window.waiting ++ [⟨c.started, hold⟩] } } := by
  refine { h with
    books := { h.books with accounts := ?_, waitingHeld := ?_ }
    wired := { h.wired with }
    tied := { h.tied with } }
  · have hacc := h.books.accounts
    simp only [keys, map_append, map_cons, map_nil, append_assoc,
      range_succ, singleton_append] at hacc ⊢
    have hmid : (c.settled.map (fun settled => settled.call.key) ++
        (c.window.waiting.map OutgoingCall.key ++
          c.started :: c.calls.map (fun call => call.2.key))).Perm
        (c.started :: (c.settled.map (fun settled => settled.call.key) ++
          (c.window.waiting.map OutgoingCall.key ++ c.calls.map (fun call => call.2.key)))) := by
      rw [← append_assoc, ← append_assoc]
      exact perm_middle
    exact (hmid.trans (hacc.cons _)).trans (perm_append_singleton _ _).symm
  · intro call hm
    rcases mem_append.mp hm with hm | hm
    · exact h.books.waitingHeld call hm
    · rw [mem_singleton.mp hm]
      exact hentry

theorem Steady.call (h : c.Steady limit p) (hold : ℕ) : (c.call hold).Steady limit p := by
  unfold ConsumerSide.call
  by_cases hentry : hold ∈ c.entries
  · rw [if_pos hentry]
    have hk := h.keeps.enqueue hentry
    unfold submit
    by_cases hfree : c.window.waiting = [] ∧ c.window.inFlight < c.window.limit
    · have htake : take ⟨c.started, hold⟩ { c with started := c.started + 1 } =
          take ⟨c.started, hold⟩
            { c with
              started := c.started + 1
              window := { c.window with waiting := [] } } := by
        rw [← hfree.1]
      rw [if_pos hfree, htake]
      exact ⟨hk.take (by simp [hfree.1]) hfree.2, .inl rfl⟩
    · rw [if_neg hfree]
      refine ⟨hk, .inr ?_⟩
      change (c.window.limit : ℤ) ≤ c.window.inFlight
      rcases h.conserving with hw | hfull
      · exact not_lt.mp fun hlt => hfree ⟨hw, hlt⟩
      · exact hfull
  · rw [if_neg hentry]
    exact h

theorem Steady.reply (h : c.Steady limit p) (hid : id ∉ (p.ledger.track c.wire).ids) :
    (c.reply id).Steady limit p := by
  unfold ConsumerSide.reply
  cases hg : Assoc.get id c.calls with
  | none => exact h
  | some call =>
    have hs : Settlement.answered.Frees := by simp [Settlement.Frees]
    obtain ⟨hk, hc⟩ := h.keeps.remove hg hs hid
    exact ⟨hk, hc⟩

theorem Books.waiting_nodup (h : c.Books dying) : c.window.waiting.Nodup := by
  have hkeys : c.keys.Nodup := h.accounts.nodup_iff.mpr nodup_range
  exact (hkeys.of_append_left.of_append_right).of_map _

theorem Steady.cancel (h : c.Steady limit p) (key : ℕ) : (c.cancel key).Steady limit p := by
  unfold ConsumerSide.cancel
  cases hf : c.window.waiting.find? (fun call => call.key = key) with
  | some call =>
    have hmem := mem_of_find?_eq_some hf
    have hone : c.window.waiting.filter (fun other => !decide (other ≠ call)) = [call] := by
      have hcount := count_eq_one_of_mem h.keeps.books.waiting_nodup hmem
      have hrep := filter_eq (l := c.window.waiting) call
      rw [hcount] at hrep
      rw [← replicate_one, ← hrep]
      refine filter_congr ?_
      intro other _
      by_cases heq : other = call
      · simp [heq]
      · simp [heq]
    have hk := h.keeps.reject (fun other => decide (other ≠ call)) .aborted
    rw [hone] at hk
    have hc := h.conserving.reject (fun other => decide (other ≠ call))
      (c.settled ++ [⟨call, none, .aborted⟩])
    exact ⟨hk, hc⟩
  | none =>
    cases hs : c.calls.find? (fun call => call.2.key = key) with
    | some found =>
      obtain ⟨id, call⟩ := found
      have hmem := mem_of_find?_eq_some hs
      have hg := Assoc.get_of_mem h.keeps.books.nodup hmem
      obtain ⟨hk, hc⟩ := h.keeps.abort hg
      exact ⟨hk, hc⟩
    | none => exact h

theorem Steady.attach (h : c.Steady limit p) : c.attach.Steady limit p := by
  have hholds : ∀ wire, holdIds (wire ++ [.hold c.nextHold]) = holdIds wire ++ [c.nextHold] :=
    fun wire => holdIds_append _ _
  have hids : ∀ wire, callIds (wire ++ [.hold c.nextHold]) = callIds wire :=
    fun wire => by simp [callIds_append, callIds]
  have hbooks := h.keeps.books
  have hwired := h.keeps.wired
  have htied := h.keeps.tied
  have hlt : ∀ hold, hold < c.nextHold → hold < c.nextHold + 1 :=
    fun _ hl => hl.trans (Nat.lt_succ_self _)
  refine ⟨⟨⟨hbooks.slots, hbooks.room, hbooks.counted, hbooks.accounts, hbooks.nodup, hbooks.idsLt,
    ?_, ?_, by simp, ?_, ?_, ?_, ?_, ?_, hbooks.causes⟩, h.keeps.bounded,
    ⟨?_, ?_, ?_, ?_, ?_, ?_, ?_, hwired.served⟩, ⟨?_, ?_, ?_⟩, h.keeps.unclosed⟩, h.conserving⟩
  · exact fun call hm => mem_append_left _ (hbooks.waitingHeld call hm)
  · exact fun call hm => (hbooks.callsHeld call hm).imp_left fun hm => mem_append_left _ hm
  · intro hold hm
    rcases mem_append.mp hm with hm | hm
    · exact hlt hold (hbooks.entriesLt hold hm)
    · rw [mem_singleton.mp hm]
      exact Nat.lt_succ_self _
  · intro hold hm
    simp only [ConsumerSide.attach, mem_append, mem_singleton, reduceCtorEq, or_false]
      at hm
    obtain ⟨hn, hl⟩ := hbooks.released hold hm
    refine ⟨?_, hlt hold hl⟩
    simp only [ConsumerSide.attach, mem_append, mem_singleton, not_or]
    exact ⟨hn, hl.ne⟩
  · intro id hm
    simp only [ConsumerSide.attach, mem_append, mem_singleton, reduceCtorEq, or_false]
      at hm
    exact hbooks.aborted id hm
  · intro id hold hm
    simp only [ConsumerSide.attach, mem_append, mem_singleton, reduceCtorEq, or_false]
      at hm
    exact hlt hold (hbooks.callHolds id hold hm)
  · refine pairwise_append.mpr ⟨hbooks.order, pairwise_singleton _ _, ?_⟩
    rintro m hm m' hm' id hold rfl heq
    rw [mem_singleton.mp hm', ToProvider.hold.injEq] at heq
    exact (hbooks.callHolds id hold hm).ne heq.symm
  · refine hwired.fits.concat ?_
    rw [Ledger.track_concat]
    exact hwired.fits.last
  · simpa only [ConsumerSide.attach, hids] using hwired.nodup
  · simpa only [ConsumerSide.attach, hids] using hwired.idsLt
  · simp only [ConsumerSide.attach, hholds]
    rw [← append_assoc]
    refine hwired.nodupHolds.append (nodup_singleton _) ?_
    simpa using fun hm => (hwired.holdsLt _ hm).ne rfl
  · intro hold hm
    simp only [ConsumerSide.attach, hholds] at hm
    rw [← append_assoc] at hm
    rcases mem_append.mp hm with hm | hm
    · exact hlt hold (hwired.holdsLt hold hm)
    · rw [mem_singleton.mp hm]
      exact Nat.lt_succ_self _
  · simpa only [ConsumerSide.attach, hids] using hwired.replies
  · intro hold hm
    obtain ⟨hn, hl⟩ := hwired.gone hold hm
    refine ⟨?_, hlt hold hl⟩
    simp only [ConsumerSide.attach, hholds]
    rw [← append_assoc, mem_append, not_or]
    exact ⟨hn, by simpa using hl.ne⟩
  · intro call hm
    simp only [ConsumerSide.attach, Ledger.track_concat] at hm
    exact htied.tracked call hm
  · intro hopen hold hm
    simp only [ConsumerSide.attach, hholds]
    rw [← append_assoc, mem_append]
    rcases mem_append.mp hm with hm | hm
    · exact (htied.alive hopen hold hm).imp_left .inl
    · exact .inl (.inr hm)
  · intro hopen pair hm hentry
    rcases mem_append.mp hentry with hentry | hentry
    · refine (htied.underway hopen pair hm hentry).imp_left ?_
      exact fun hm => mem_append_left _ hm
    · -- no call in flight is on a hold just made
      obtain ⟨call, hcall, rfl⟩ := mem_map.mp hm
      have hheld := (hbooks.callsHeld call hcall).resolve_right (by simp)
      have hl := hbooks.entriesLt _ hheld
      rw [mem_singleton] at hentry
      exact absurd hentry hl.ne

end ConsumerSide

end KnightCode.Calls
