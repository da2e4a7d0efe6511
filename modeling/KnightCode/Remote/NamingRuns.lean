import KnightCode.Remote.Naming

/-!
# Calls run as the methods their consumer meant

A run whose steps all keep the names of the calls under way answers every call as its consumer
meant it, or refuses it. After a rebinding with other names two phases follow one another: until the
consumer applies the `bound`, everything it sends is by the old names; from then until its
acknowledgement arrives, the calls before the acknowledgement are by the old names and the ones
after it by the new names.
-/

namespace KnightCode.Naming

open List

def Up.isAck : Up → Bool
  | .ack => true
  | _ => false

/-- The consumer acknowledges it. -/
def Down.isOwn : Down → Bool
  | .bound .. | .own => true
  | _ => false

def acks (up : List Up) : ℕ :=
  up.countP Up.isAck

def owns (down : List Down) : ℕ :=
  down.countP Down.isOwn

@[simp] theorem acks_nil : acks [] = 0 := rfl

@[simp] theorem acks_append (up up' : List Up) : acks (up ++ up') = acks up + acks up' :=
  countP_append

@[simp] theorem acks_ack (up : List Up) : acks (.ack :: up) = acks up + 1 := by
  simp [acks, Up.isAck, countP_cons]

@[simp] theorem acks_call (index : ℕ) (names : Names) (up : List Up) :
    acks (.call index names :: up) = acks up := by
  simp [acks, Up.isAck]

@[simp] theorem acks_release (up : List Up) : acks (.release :: up) = acks up := by
  simp [acks, Up.isAck]

@[simp] theorem owns_nil : owns [] = 0 := rfl

@[simp] theorem owns_append (down down' : List Down) :
    owns (down ++ down') = owns down + owns down' :=
  countP_append

theorem owns_cons (message : Down) (down : List Down) :
    owns (message :: down) = owns down + if message.isOwn then 1 else 0 := by
  simp [owns, countP_cons]

theorem acks_reply (message : Down) :
    acks (if message.isOwn then [.ack] else []) = if message.isOwn then 1 else 0 := by
  cases hm : message.isOwn <;> simp

def follows : Bool → List Down → Option Bool
  | live, [] => some live
  | true, .bound .. :: _ => none
  | false, .bound .. :: down => follows true down
  | live, .own :: down => follows live down
  | _, .loading :: down => follows false down
  | _, .failed :: down => follows false down
  | _, .gone :: down => follows false down

theorem follows_append (live : Bool) (down down' : List Down) :
    follows live (down ++ down') = (follows live down).bind (fun live => follows live down') := by
  induction down generalizing live with
  | nil => rfl
  | cons message down ih =>
    cases message <;> cases live <;> simp [follows, ih]

def RefState.isLive : RefState → Bool
  | .live _ => true
  | _ => false

def HoldState.isBound : HoldState → Bool
  | .bound .. => true
  | _ => false

/-! ### What the consumer sends -/

namespace Consumer

/-- Only a live reference has calls waiting for a slot, by the names it is bound to. -/
def Queued (c : Consumer) : Prop :=
  ∀ index names, (index, names) ∈ c.queued → index < names.length ∧ c.state = .live names

/-- A step of the consumer's own: its calls are by the names it is bound to. -/
structure Sends (c : Consumer) (step : Consumer × List Up) : Prop where
  calls : ∀ index names, Up.call index names ∈ step.2 →
    index < names.length ∧ c.state = .live names
  silent : acks step.2 = 0
  state : step.1.state = c.state ∨ step.1.state = .ended
  released : Up.release ∈ step.2 → step.1.state = .ended
  queued : step.1.Queued

variable {names : Names} {step : Consumer × List Up} {message : Down}

theorem index_lt {methods : List Text} {index : ℕ} (h : index ∈ indexes names methods) :
    index < names.length := by
  simp only [indexes, mem_map, mem_filter, decide_eq_true_eq] at h
  obtain ⟨method, ⟨-, hmethod⟩, rfl⟩ := h
  exact idxOf_lt_length_of_mem hmethod

theorem Queued.of_nil {c : Consumer} (h : c.queued = []) : c.Queued := by
  intro index names hc
  rw [h] at hc
  cases hc

theorem Sends.idle {c c' : Consumer} (hstate : c'.state = c.state) (hq : c'.Queued) :
    c.Sends (c', []) where
  calls _ _ hc := by cases hc
  silent := rfl
  state := .inl hstate
  released hc := by cases hc
  queued := hq

variable {c : Consumer}

theorem Queued.sublist {c' : Consumer} (h : c.Queued) (hstate : c'.state = c.state)
    (hq : c'.queued.Sublist c.queued) : c'.Queued := by
  intro index names hc
  rw [hstate]
  exact h index names (hq.subset hc)

theorem Sends.live (h : c.Sends step) (hlive : ∀ bound, c.state = .live bound → bound = names)
    (bound : Names) (hb : step.1.state = .live bound) : bound = names := by
  rcases h.state with hstate | hstate
  · exact hlive bound (hstate ▸ hb)
  · rw [hb] at hstate
    cases hstate

theorem Sends.sent (h : c.Sends step) {up : List Up}
    (hlive : ∀ bound, c.state = .live bound → bound = names)
    (hup : ∀ index sent, Up.call index sent ∈ up → sent = names) (index : ℕ) (sent : Names)
    (hc : Up.call index sent ∈ up ++ step.2) : sent = names := by
  rcases mem_append.mp hc with hc | hc
  · exact hup index sent hc
  · exact hlive sent (h.calls index sent hc).2

theorem sends_call (h : c.Queued) (method : Text) (free : Bool) : c.Sends (c.call method free) := by
  unfold call
  cases hs : c.state with
  | live names =>
    by_cases hm : method ∈ names
    · have hi : names.idxOf method < names.length := idxOf_lt_length_of_mem hm
      cases free with
      | true =>
        simp only [hm, if_true]
        refine ⟨?_, rfl, .inl rfl, by simp, h⟩
        intro index sent hc
        simp only [mem_singleton, Up.call.injEq] at hc
        obtain ⟨rfl, rfl⟩ := hc
        exact ⟨hi, hs⟩
      | false =>
        simp only [hm, if_true, Bool.false_eq_true, if_false]
        refine Sends.idle hs.symm ?_
        intro index sent hc
        rcases mem_append.mp hc with hc | hc
        · exact ⟨(h index sent hc).1, hs.symm.trans (h index sent hc).2⟩
        · simp only [mem_singleton, Prod.mk.injEq] at hc
          obtain ⟨rfl, rfl⟩ := hc
          exact ⟨hi, rfl⟩
    · simp only [hm, if_false]
      exact Sends.idle rfl h
  | loading => exact Sends.idle hs.symm (h.sublist hs.symm (List.Sublist.refl _))
  | failed | ended => exact Sends.idle rfl h

theorem sends_drain (h : c.Queued) : c.Sends c.drain := by
  unfold drain
  cases hq : c.queued with
  | nil => exact Sends.idle rfl h
  | cons head queued =>
    obtain ⟨index, names⟩ := head
    have hhead := h index names (by simp [hq])
    refine ⟨?_, by simp, .inl rfl, by simp, ?_⟩
    · intro index' names' hc
      simp only [mem_singleton, Up.call.injEq] at hc
      obtain ⟨rfl, rfl⟩ := hc
      exact hhead
    · exact h.sublist rfl (by simp [hq])

theorem sends_release (h : c.Queued) : c.Sends c.release := by
  have hgive : c.Sends (c.give, [.release]) :=
    ⟨by simp, by simp, .inr rfl, fun _ => rfl, Queued.of_nil rfl⟩
  unfold release
  cases hs : c.state with
  | ended => exact Sends.idle rfl h
  | live | loading | failed => exact hgive

/-- A message of the provider was applied: only a `bound` makes calls go out, by its names, and
they go out before the acknowledgement. -/
structure Receives (c : Consumer) (message : Down) (calls : Names → List ℕ)
    (step : Consumer × List Up) : Prop where
  sent : ∃ sent, step.2 = sent ++ (if message.isOwn then [.ack] else []) ∧ acks sent = 0 ∧
    ∀ index names, Up.call index names ∈ sent →
      index ∈ calls names ∧ index < names.length ∧ ∃ kept, message = .bound names kept
  state : ∀ names, step.1.state = .live names →
    c.state = .live names ∧ message = .own ∨ ∃ kept, message = .bound names kept
  released : Up.release ∈ step.2 → step.1.state = .ended
  ended : c.state = .ended → step.1.state = .ended
  follows : ∀ down bound, follows c.state.isLive (message :: down) = some bound →
    step.1.state = .ended ∨ follows step.1.state.isLive down = some bound
  queued : step.1.Queued

theorem Receives.live {calls : Names → List ℕ} (h : c.Receives message calls step)
    (hlive : ∀ bound, c.state = .live bound → bound = names)
    (hm : ∀ bound kept, message = .bound bound kept → bound = names) (bound : Names)
    (hb : step.1.state = .live bound) : bound = names := by
  rcases h.state bound hb with ⟨hstate, -⟩ | ⟨kept, hbound⟩
  · exact hlive bound hstate
  · exact hm bound kept hbound

theorem Receives.calls {calls : Names → List ℕ} (h : c.Receives message calls step) {index : ℕ}
    (hc : Up.call index names ∈ step.2) :
    index ∈ calls names ∧ index < names.length ∧ ∃ kept, message = .bound names kept := by
  obtain ⟨sent, hsent, -, hcalls⟩ := h.sent
  rw [hsent] at hc
  rcases mem_append.mp hc with hc | hc
  · exact hcalls index names hc
  · split at hc <;> simp at hc

theorem Receives.sent_by {calls : Names → List ℕ} (h : c.Receives message calls step)
    {up : List Up} (hm : ∀ bound kept, message = .bound bound kept → bound = names)
    (hup : ∀ index sent, Up.call index sent ∈ up → sent = names) (index : ℕ) (sent : Names)
    (hc : Up.call index sent ∈ up ++ step.2) : sent = names := by
  rcases mem_append.mp hc with hc | hc
  · exact hup index sent hc
  · obtain ⟨-, -, kept, hbound⟩ := h.calls hc
    exact hm sent kept hbound

theorem mem_wentLive {meanwhile : List Text} {room : ℕ} {message : Up}
    (h : message ∈ (c.wentLive names meanwhile room).2) :
    ∃ index ∈ (c.flushed names meanwhile).take room, message = .call index names := by
  simp only [wentLive, mem_map] at h
  obtain ⟨index, hi, rfl⟩ := h
  exact ⟨index, hi, rfl⟩

theorem receives_bound (h : c.Queued) (names : Names) (kept : Option Names) (meanwhile : List Text)
    (room : ℕ) (oversized : Bool) (hlive : c.state = .ended ∨ c.state.isLive = false) :
    c.Receives (.bound names kept)
      (fun names => if oversized then [] else (c.flushed names meanwhile).take room)
      (c.bound names meanwhile room oversized) := by
  have hq : c.queued = [] := by
    cases hc : c.queued with
    | nil => rfl
    | cons head queued =>
      obtain ⟨-, hs⟩ := h head.1 head.2 (by simp [hc])
      rcases hlive with hlive | hlive <;> simp [hs, RefState.isLive] at hlive
  by_cases he : c.state = .ended
  · have hb : c.bound names meanwhile room oversized = (c, [.ack]) := by simp [bound, he]
    rw [hb]
    refine ⟨⟨[], rfl, rfl, by simp⟩, by simp [he], by simp, fun _ => he, ?_, h⟩
    exact fun _ _ _ => .inl he
  · cases oversized with
    | true =>
      have hb : c.bound names meanwhile room true = (c.give, [.release, .ack]) := by
        unfold bound
        cases hs : c.state <;> first | exact absurd hs he | rfl
      rw [hb]
      refine ⟨⟨[.release], rfl, by simp, by simp⟩, by simp [give], fun _ => rfl, fun _ => rfl,
        ?_, Queued.of_nil rfl⟩
      exact fun _ _ _ => .inl rfl
    | false =>
      have hb : c.bound names meanwhile room false =
          ((c.wentLive names meanwhile room).1,
            (c.wentLive names meanwhile room).2 ++ [.ack]) := by
        unfold bound
        cases hs : c.state <;> first | exact absurd hs he | rfl
      rw [hb]
      refine ⟨⟨_, rfl, ?_, ?_⟩, ?_, ?_, fun hs => absurd hs he, ?_, ?_⟩
      · refine countP_eq_zero.mpr ?_
        intro message hm
        obtain ⟨index, -, rfl⟩ := mem_wentLive hm
        simp [Up.isAck]
      · intro index sent hc
        obtain ⟨call, hcall, heq⟩ := mem_wentLive hc
        cases heq
        exact ⟨by simpa using hcall, index_lt (mem_of_mem_take hcall), kept, rfl⟩
      · intro bound hb
        simp only [wentLive, RefState.live.injEq] at hb
        exact .inr ⟨kept, by rw [hb]⟩
      · intro hr
        rcases mem_append.mp hr with hr | hr
        · obtain ⟨index, -, heq⟩ := mem_wentLive hr
          cases heq
        · simp at hr
      · intro down bound hf
        have hl : c.state.isLive = false := hlive.resolve_left he
        rw [hl] at hf
        exact .inr hf
      · intro index sent hc
        simp only [wentLive, hq, nil_append, mem_map, Prod.mk.injEq] at hc
        obtain ⟨call, hcall, rfl, rfl⟩ := hc
        exact ⟨index_lt (mem_of_mem_drop hcall), rfl⟩

theorem receives_quiet {c' : Consumer} {calls : Names → List ℕ}
    (hstate : c'.state = c.state ∧ message = .own ∨ c'.state.isLive = false ∧ message.isOwn = false)
    (hended : c.state = .ended → c'.state = .ended) (hq : c'.Queued) :
    c.Receives message calls (c', if message.isOwn then [.ack] else []) := by
  refine ⟨⟨[], rfl, rfl, by simp⟩, ?_, ?_, hended, ?_, hq⟩
  · intro names hs
    rcases hstate with ⟨hstate, hm⟩ | ⟨hstate, -⟩
    · exact .inl ⟨hstate ▸ hs, hm⟩
    · rw [show c'.state = .live names from hs] at hstate
      cases hstate
  · intro hr
    split at hr <;> simp at hr
  · intro down bound hf
    refine .inr ?_
    rcases hstate with ⟨hstate, rfl⟩ | ⟨hstate, hm⟩
    · change follows c'.state.isLive down = some bound
      rw [hstate]
      cases hl : c.state.isLive <;> rw [hl] at hf <;> exact hf
    · change follows c'.state.isLive down = some bound
      rw [hstate]
      cases message <;> cases hl : c.state.isLive <;> rw [hl] at hf <;>
        first | exact hf | cases hm

theorem receives (h : c.Queued) (message : Down) (meanwhile : List Text) (room : ℕ)
    (oversized : Bool)
    (hlive : ∀ names kept, message = .bound names kept →
      c.state = .ended ∨ c.state.isLive = false) :
    c.Receives message
      (fun names => if oversized then [] else (c.flushed names meanwhile).take room)
      (c.receive message meanwhile room oversized) := by
  cases message with
  | bound names kept =>
    exact receives_bound h names kept meanwhile room oversized (hlive names kept rfl)
  | own => exact receives_quiet (.inl ⟨rfl, rfl⟩) id h
  | loading =>
    refine receives_quiet (.inr ⟨?_, rfl⟩) ?_ ?_ <;> unfold loading <;> cases hs : c.state
    all_goals first
      | exact Queued.of_nil rfl
      | simp [hs, RefState.isLive]
    exact h
  | failed =>
    refine receives_quiet (.inr ⟨?_, rfl⟩) ?_ ?_ <;> unfold failed <;> cases hs : c.state
    all_goals first
      | exact Queued.of_nil rfl
      | simp [hs, RefState.isLive]
    exact h
  | gone => exact receives_quiet (.inr ⟨rfl, rfl⟩) (fun _ => rfl) (Queued.of_nil rfl)

end Consumer

/-- The `bound` that changes the names has not reached the consumer. -/
def Link.Before (s : Link) (previous names : Names) (until_ : ℕ) : Prop :=
  ∃ pre post, s.down = pre ++ .bound names (some previous) :: post ∧
    s.provider.ownAcked + acks s.up + owns pre + 1 = until_ ∧
    (∀ index sent, Up.call index sent ∈ s.up → sent = previous) ∧
    (∀ bound, s.consumer.state = .live bound → bound = previous) ∧
    (∀ bound kept, Down.bound bound kept ∈ pre → bound = previous) ∧
    ∀ bound kept, Down.bound bound kept ∉ post

/-- The consumer applied the `bound` that changes the names, and its acknowledgement is on its
way. -/
def Link.After (s : Link) (previous names : Names) (until_ : ℕ) : Prop :=
  ∃ pre post, s.up = pre ++ .ack :: post ∧
    s.provider.ownAcked + acks pre + 1 = until_ ∧
    (∀ index sent, Up.call index sent ∈ pre → sent = previous) ∧
    (∀ index sent, Up.call index sent ∈ post → sent = names) ∧
    (∀ bound, s.consumer.state = .live bound → bound = names) ∧
    ∀ bound kept, Down.bound bound kept ∉ s.down

/-- The names the hold keeps, with the older ones it decodes by until an acknowledgement. -/
def HoldState.keeps : HoldState → Option (Names × Option (Names × ℕ))
  | .pending _ previous | .binding previous => previous.map (fun names => (names, none))
  | .bound names previous => some (names, previous)
  | _ => none

/-- What the provider decodes by is what the calls under way were sent by. -/
structure Link.Decodes (s : Link) : Prop where
  alone : ∀ names, s.provider.hold.keeps = some (names, none) → s.Speaks names
  acked : ∀ names previous until_, s.provider.hold.keeps = some (names, some (previous, until_)) →
    until_ ≤ s.provider.ownAcked → s.Speaks names
  waiting : ∀ names previous until_, s.provider.hold.keeps = some (names, some (previous, until_)) →
    s.provider.ownAcked < until_ → s.Before previous names until_ ∨ s.After previous names until_

structure Link.Inv (s : Link) : Prop where
  calls : ∀ index names, Up.call index names ∈ s.up → index < names.length
  queued : s.consumer.Queued
  counted : s.provider.ownAcked + acks s.up + owns s.down = s.provider.ownSent
  released : Up.release ∈ s.up → s.consumer.state = .ended
  alternates : s.consumer.state = .ended ∨
    follows s.consumer.state.isLive s.down = some s.provider.hold.isBound
  decodes : s.Decodes
  right : ∀ answer ∈ s.answers, answer.Right

/-! ### One step -/

namespace Link

variable {s : Link} {previous names : Names} {until_ : ℕ}
variable {step : Consumer × List Up}

theorem Speaks.consume (h : s.Speaks names) (hs : s.consumer.Sends step) :
    (s.consume step).Speaks names where
  calls := hs.sent h.live h.calls
  live := hs.live h.live
  bounds := h.bounds

theorem Before.consume (h : s.Before previous names until_) (hs : s.consumer.Sends step) :
    (s.consume step).Before previous names until_ := by
  obtain ⟨pre, post, hdown, hcount, hcalls, hlive, hpre, hpost⟩ := h
  refine ⟨pre, post, hdown, ?_, hs.sent hlive hcalls, hs.live hlive, hpre, hpost⟩
  simpa [Link.consume, hs.silent] using hcount

theorem After.consume (h : s.After previous names until_) (hs : s.consumer.Sends step) :
    (s.consume step).After previous names until_ := by
  obtain ⟨pre, post, hup, hcount, hpre, hpost, hlive, hdown⟩ := h
  refine ⟨pre, post ++ step.2, ?_, hcount, hpre, hs.sent hlive hpost, hs.live hlive, hdown⟩
  simp [Link.consume, hup]

theorem Decodes.mono {s' : Link} (h : s.Decodes) (hhold : s'.provider.hold = s.provider.hold)
    (hacked : s'.provider.ownAcked = s.provider.ownAcked)
    (hspeaks : ∀ names, s.Speaks names → s'.Speaks names)
    (hbefore : ∀ previous names until_, s.Before previous names until_ →
      s'.Before previous names until_ ∨ s'.After previous names until_)
    (hafter : ∀ previous names until_, s.After previous names until_ →
      s'.After previous names until_) : s'.Decodes where
  alone names hn := hspeaks names (h.alone names (hhold ▸ hn))
  acked names previous until_ hn hu :=
    hspeaks names (h.acked names previous until_ (hhold ▸ hn) (hacked ▸ hu))
  waiting names previous until_ hn hu := by
    rcases h.waiting names previous until_ (hhold ▸ hn) (hacked ▸ hu) with hb | ha
    · exact hbefore previous names until_ hb
    · exact .inr (hafter previous names until_ ha)

theorem Inv.consume (h : s.Inv) (hs : s.consumer.Sends step) : (s.consume step).Inv where
  calls index names hc := by
    rcases mem_append.mp hc with hc | hc
    · exact h.calls index names hc
    · exact (hs.calls index names hc).1
  queued := hs.queued
  counted := by simpa [Link.consume, hs.silent] using h.counted
  released hr := by
    rcases mem_append.mp hr with hr | hr
    · rcases hs.state with hstate | hstate
      · exact hstate.trans (h.released hr)
      · exact hstate
    · exact hs.released hr
  alternates := by
    rcases hs.state with hstate | hstate
    · have halt := h.alternates
      rw [← hstate] at halt
      exact halt
    · exact .inl hstate
  decodes := h.decodes.mono rfl rfl (fun _ hsp => hsp.consume hs)
    (fun _ _ _ hb => .inl (hb.consume hs)) (fun _ _ _ ha => ha.consume hs)
  right := h.right

section Deliver

variable {message : Down} {down : List Down} {calls : Names → List ℕ} {step : Consumer × List Up}

theorem Speaks.deliver (h : s.Speaks names) (hd : s.down = message :: down)
    (hr : s.consumer.Receives message calls step) :
    ({ s with down }.consume step).Speaks names := by
  have hbound : ∀ bound kept, message = .bound bound kept → bound = names := by
    intro bound kept hm
    exact h.bounds bound kept (by simp [hd, hm])
  refine ⟨hr.sent_by hbound h.calls, hr.live h.live hbound, ?_⟩
  intro bound kept hb
  refine h.bounds bound kept ?_
  rw [hd]
  exact mem_cons_of_mem _ hb

theorem After.deliver (h : s.After previous names until_) (hd : s.down = message :: down)
    (hr : s.consumer.Receives message calls step) :
    ({ s with down }.consume step).After previous names until_ := by
  obtain ⟨pre, post, hup, hcount, hpre, hpost, hlive, hdown⟩ := h
  have hbound : ∀ bound kept, message = .bound bound kept → bound = names := by
    intro bound kept hm
    exact absurd (by simp [hd, hm]) (hdown bound kept)
  refine ⟨pre, post ++ step.2, ?_, hcount, hpre, hr.sent_by hbound hpost, hr.live hlive hbound, ?_⟩
  · simp [Link.consume, hup]
  · intro bound kept hb
    refine hdown bound kept ?_
    rw [hd]
    exact mem_cons_of_mem _ hb

theorem Before.deliver_earlier {pre post : List Down}
    (hdown : down = pre ++ .bound names (some previous) :: post)
    (hcount : s.provider.ownAcked + acks s.up + owns (message :: pre) + 1 = until_)
    (hcalls : ∀ index sent, Up.call index sent ∈ s.up → sent = previous)
    (hlive : ∀ bound, s.consumer.state = .live bound → bound = previous)
    (hpre : ∀ bound kept, Down.bound bound kept ∈ message :: pre → bound = previous)
    (hpost : ∀ bound kept, Down.bound bound kept ∉ post)
    (hr : s.consumer.Receives message calls step) :
    ({ s with down }.consume step).Before previous names until_ := by
  obtain ⟨sent, hsent, hsilent, -⟩ := hr.sent
  have hhead : ∀ bound kept, message = .bound bound kept → bound = previous := by
    intro bound kept hm
    exact hpre bound kept (by simp [hm])
  refine ⟨pre, post, hdown, ?_, hr.sent_by hhead hcalls, hr.live hlive hhead, ?_, hpost⟩
  · simp only [Link.consume, hsent, acks_append, hsilent, acks_reply]
    rw [owns_cons] at hcount
    omega
  · intro bound kept hb
    exact hpre bound kept (mem_cons_of_mem _ hb)

/-- The `bound` that changes the names was applied, and no call by the new names went out before
its acknowledgement. -/
theorem Before.deliver_bound (hcount : s.provider.ownAcked + acks s.up + 1 = until_)
    (hcalls : ∀ index sent, Up.call index sent ∈ s.up → sent = previous)
    (hpost : ∀ bound kept, Down.bound bound kept ∉ down)
    (hr : s.consumer.Receives (.bound names (some previous)) calls step)
    (hback : previous = names ∨ calls names = []) :
    ({ s with down }.consume step).After previous names until_ := by
  obtain ⟨sent, hsent, hsilent, hnew⟩ := hr.sent
  have hsent' : step.2 = sent ++ [.ack] := hsent
  refine ⟨s.up ++ sent, [], ?_, ?_, ?_, by simp, ?_, hpost⟩
  · simp [Link.consume, hsent']
  · simpa [Link.consume, hsilent] using hcount
  · intro index bound hc
    rcases mem_append.mp hc with hc | hc
    · exact hcalls index bound hc
    · obtain ⟨hi, -, kept, hm⟩ := hnew index bound hc
      cases hm
      rcases hback with hback | hback
      · exact hback.symm
      · rw [hback] at hi
        cases hi
  · intro bound hb
    rcases hr.state bound hb with ⟨-, hm⟩ | ⟨kept, hm⟩
    · cases hm
    · cases hm
      rfl

theorem Before.deliver (h : s.Before previous names until_) (hd : s.down = message :: down)
    (hr : s.consumer.Receives message calls step)
    (hback : message = .bound names (some previous) → previous = names ∨ calls names = []) :
    ({ s with down }.consume step).Before previous names until_ ∨
      ({ s with down }.consume step).After previous names until_ := by
  obtain ⟨pre, post, hdown, hcount, hcalls, hlive, hpre, hpost⟩ := h
  rw [hd] at hdown
  cases pre with
  | nil =>
    simp only [nil_append, cons.injEq] at hdown
    obtain ⟨rfl, rfl⟩ := hdown
    exact .inr (Before.deliver_bound hcount hcalls hpost hr (hback rfl))
  | cons head pre =>
    simp only [cons_append, cons.injEq] at hdown
    obtain ⟨rfl, hdown⟩ := hdown
    exact .inl (Before.deliver_earlier hdown hcount hcalls hlive hpre hpost hr)

theorem Inv.deliver_cons (h : s.Inv) (hd : s.down = message :: down)
    (hr : s.consumer.Receives message calls step)
    (hback : ∀ names kept, message = .bound names (some kept) → kept = names ∨ calls names = []) :
    ({ s with down }.consume step).Inv where
  calls index names hc := by
    rcases mem_append.mp hc with hc | hc
    · exact h.calls index names hc
    · exact (hr.calls hc).2.1
  queued := hr.queued
  counted := by
    obtain ⟨sent, hsent, hsilent, -⟩ := hr.sent
    have hcount := h.counted
    rw [hd, owns_cons] at hcount
    simp only [Link.consume, hsent, acks_append, hsilent, acks_reply]
    omega
  released hc := by
    rcases mem_append.mp hc with hc | hc
    · exact hr.ended (h.released hc)
    · exact hr.released hc
  alternates := by
    rcases h.alternates with hended | hf
    · exact .inl (hr.ended hended)
    · rw [hd] at hf
      exact hr.follows down _ hf
  decodes := h.decodes.mono rfl rfl (fun _ hsp => hsp.deliver hd hr)
    (fun _ _ _ hb => hb.deliver hd hr (hback _ _)) (fun _ _ _ ha => ha.deliver hd hr)
  right := h.right

theorem Inv.deliver (h : s.Inv) (meanwhile : List Text) (room : ℕ) (oversized : Bool)
    (hback : oversized = false → s.HoldsBack meanwhile room) :
    (s.deliver meanwhile room oversized).Inv := by
  unfold Link.deliver
  cases hd : s.down with
  | nil => exact h
  | cons message down =>
    refine h.deliver_cons hd (Consumer.receives h.queued message meanwhile room oversized ?_) ?_
    · intro names kept hm
      refine h.alternates.imp_right ?_
      intro hf
      rw [hd, hm] at hf
      cases hl : s.consumer.state.isLive with
      | true =>
        rw [hl] at hf
        cases hf
      | false => rfl
    · intro names kept hm
      cases oversized with
      | true => exact .inr rfl
      | false => exact hback rfl names kept down (by rw [hd, hm])

end Deliver

section Provide

variable {step : Provider × List Down}

theorem Speaks.provide (h : s.Speaks names)
    (hsent : ∀ bound kept, Down.bound bound kept ∈ step.2 → bound = names) :
    (s.provide step).Speaks names where
  calls := h.calls
  live := h.live
  bounds bound kept hb := by
    rcases mem_append.mp hb with hb | hb
    · exact h.bounds bound kept hb
    · exact hsent bound kept hb

theorem Before.provide (h : s.Before previous names until_)
    (hacked : step.1.ownAcked = s.provider.ownAcked)
    (hsent : ∀ bound kept, Down.bound bound kept ∉ step.2) :
    (s.provide step).Before previous names until_ := by
  obtain ⟨pre, post, hdown, hcount, hcalls, hlive, hpre, hpost⟩ := h
  refine ⟨pre, post ++ step.2, ?_, ?_, hcalls, hlive, hpre, ?_⟩
  · simp [Link.provide, hdown]
  · simpa [Link.provide, hacked] using hcount
  · intro bound kept hb
    rcases mem_append.mp hb with hb | hb
    · exact hpost bound kept hb
    · exact hsent bound kept hb

theorem After.provide (h : s.After previous names until_)
    (hacked : step.1.ownAcked = s.provider.ownAcked)
    (hsent : ∀ bound kept, Down.bound bound kept ∉ step.2) :
    (s.provide step).After previous names until_ := by
  obtain ⟨pre, post, hup, hcount, hpre, hpost, hlive, hdown⟩ := h
  refine ⟨pre, post, hup, ?_, hpre, hpost, hlive, ?_⟩
  · simpa [Link.provide, hacked] using hcount
  · intro bound kept hb
    rcases mem_append.mp hb with hb | hb
    · exact hdown bound kept hb
    · exact hsent bound kept hb

theorem Decodes.provide (h : s.Decodes) (hhold : step.1.hold = s.provider.hold)
    (hacked : step.1.ownAcked = s.provider.ownAcked)
    (hsent : ∀ bound kept, Down.bound bound kept ∉ step.2) : (s.provide step).Decodes :=
  h.mono hhold hacked
    (fun _ hsp => hsp.provide (fun bound kept hb => absurd hb (hsent bound kept)))
    (fun _ _ _ hb => .inl (hb.provide hacked hsent))
    (fun _ _ _ ha => ha.provide hacked hsent)

theorem Inv.provide (h : s.Inv) (hacked : step.1.ownAcked = s.provider.ownAcked)
    (hcount : step.1.ownSent = s.provider.ownSent + owns step.2)
    (hfollows : follows s.provider.hold.isBound step.2 = some step.1.hold.isBound)
    (hdecodes : (s.provide step).Decodes) : (s.provide step).Inv where
  calls := h.calls
  queued := h.queued
  counted := by
    have hc := h.counted
    simp only [Link.provide, owns_append, hacked, hcount]
    omega
  released := h.released
  alternates := by
    refine h.alternates.imp_right ?_
    intro hf
    rw [Link.provide, follows_append, hf]
    exact hfollows
  decodes := hdecodes
  right := h.right

theorem Before.speaks (h : s.Before names names until_) : s.Speaks names := by
  obtain ⟨pre, post, hdown, -, hcalls, hlive, hpre, hpost⟩ := h
  refine ⟨hcalls, hlive, ?_⟩
  intro bound kept hb
  rw [hdown, mem_append, mem_cons] at hb
  rcases hb with hb | hb | hb
  · exact hpre bound kept hb
  · cases hb
    rfl
  · exact absurd hb (hpost bound kept)

theorem After.speaks (h : s.After names names until_) : s.Speaks names := by
  obtain ⟨pre, post, hup, -, hpre, hpost, hlive, hdown⟩ := h
  refine ⟨?_, hlive, fun bound kept hb => absurd hb (hdown bound kept)⟩
  intro index sent hc
  rw [hup, mem_append, mem_cons] at hc
  rcases hc with hc | hc | hc
  · exact hpre index sent hc
  · cases hc
  · exact hpost index sent hc

theorem Decodes.cases (h : s.Decodes) (hn : s.provider.names = some names) :
    s.Speaks names ∨ ∃ current until_, s.provider.hold = .bound current (some (names, until_)) ∧
      s.provider.ownAcked < until_ ∧
      (s.Before names current until_ ∨ s.After names current until_) := by
  unfold Provider.names at hn
  cases hs : s.provider.hold with
  | unplaced | refused | released =>
    rw [hs] at hn
    cases hn
  | pending told previous | binding previous =>
    rw [hs] at hn
    obtain rfl : previous = some names := hn
    exact .inl (h.alone names (by rw [hs]; rfl))
  | bound current previous =>
    rw [hs] at hn
    cases previous with
    | none =>
      obtain rfl : current = names := Option.some.inj hn
      exact .inl (h.alone current (by rw [hs]; rfl))
    | some previous =>
      obtain ⟨previous, until_⟩ := previous
      by_cases hu : until_ ≤ s.provider.ownAcked
      · simp only [Provider.acknowledged, hu, decide_true, if_true, Option.some.injEq] at hn
        subst hn
        exact .inl (h.acked current previous until_ (by rw [hs]; rfl) hu)
      · simp only [Provider.acknowledged, hu, decide_false, Bool.false_eq_true, if_false,
          Option.some.injEq] at hn
        subst hn
        have hlt : s.provider.ownAcked < until_ := by omega
        exact .inr ⟨current, until_, rfl, hlt,
          h.waiting current previous until_ (by rw [hs]; rfl) hlt⟩

theorem Decodes.speaks (h : s.Decodes) (hkeeps : s.KeepsNames)
    (hn : s.provider.names = some names) : s.Speaks names := by
  obtain hs | ⟨current, until_, hs, hlt, hphase⟩ := h.cases hn
  · exact hs
  · obtain rfl : names = current :=
      hkeeps current names until_ hs (decide_eq_false (by omega))
    rcases hphase with hb | ha
    · exact hb.speaks
    · exact ha.speaks

end Provide

end Link

/-! ### What the provider does -/

namespace Provider

/-- The hold loses its names, if it had any. -/
structure Drops (p : Provider) (step : Provider × List Down) : Prop where
  acked : step.1.ownAcked = p.ownAcked
  sent : step.1.ownSent = p.ownSent
  silent : owns step.2 = 0
  follows : follows p.hold.isBound step.2 = some step.1.hold.isBound
  nameless : step.1.hold.keeps = none

variable {p : Provider}

theorem Drops.of_hold {hold : HoldState} {down : List Down} (hnames : hold.keeps = none)
    (hbound : hold.isBound = false) (hdown : down = [.failed] ∨ down = [.loading] ∨ down = [.gone] ∨
      down = [] ∧ p.hold.isBound = false) : p.Drops ({ p with hold }, down) := by
  refine ⟨rfl, rfl, ?_, ?_, hnames⟩
  · rcases hdown with rfl | rfl | rfl | ⟨rfl, -⟩ <;> rfl
  · change Naming.follows p.hold.isBound down = some hold.isBound
    rw [hbound]
    rcases hdown with rfl | rfl | rfl | ⟨rfl, hp⟩
    · cases p.hold.isBound <;> rfl
    · cases p.hold.isBound <;> rfl
    · cases p.hold.isBound <;> rfl
    · rw [hp]
      rfl

/-- `moved` changes nothing, goes on to binding, loses the names with a failure, or keeps them with
a `loading`. -/
theorem moved_cases (p : Provider) (shown : Shown) (attachable : Bool) :
    p.moved shown attachable = (p, []) ∨
    (∃ told previous, p.hold = .pending told previous ∧
      p.moved shown attachable = ({ p with hold := .binding previous }, [])) ∨
    p.Drops (p.moved shown attachable) ∨
    shown = .loading ∧ (p.hold.isBound = true → attachable = false) ∧
      p.moved shown attachable = ({ p with hold := .pending false p.names }, [.loading]) := by
  have hfailed : p.unbindMoved .failed = ({ p with hold := .pending true none }, [.failed]) := rfl
  have hloading : p.unbindMoved .loading =
      ({ p with hold := .pending false p.names }, [.loading]) := rfl
  have htold : p.Drops ({ p with hold := .pending true none }, [.failed]) :=
    Drops.of_hold rfl rfl (.inl rfl)
  cases hs : p.hold with
  | unplaced | refused | released => exact .inl (by simp [moved, movePending, hs])
  | pending told previous =>
    cases shown with
    | live =>
      exact .inr (.inl ⟨told, previous, rfl, by simp [moved, movePending, hs]⟩)
    | failed =>
      refine .inr (.inr (.inl ?_))
      rw [show p.moved .failed attachable = ({ p with hold := .pending true none }, [.failed])
        by simp [moved, movePending, hs]]
      exact htold
    | loading =>
      cases told with
      | false => exact .inl (by simp [moved, movePending, hs])
      | true =>
        refine .inr (.inr (.inl ?_))
        rw [show p.moved .loading attachable =
          ({ p with hold := .pending false none }, [.loading]) by
            simp [moved, movePending, hs]]
        exact Drops.of_hold rfl rfl (.inr (.inl rfl))
  | binding previous =>
    cases shown with
    | live => exact .inl (by simp [moved, hs])
    | failed =>
      refine .inr (.inr (.inl ?_))
      rw [show p.moved .failed attachable = p.unbindMoved .failed by simp [moved, hs], hfailed]
      exact htold
    | loading =>
      refine .inr (.inr (.inr ⟨rfl, ?_, ?_⟩))
      · intro hb
        cases hb
      · rw [show p.moved .loading attachable = p.unbindMoved .loading by simp [moved, hs],
          hloading]
  | bound names previous =>
    cases attachable with
    | true => exact .inl (by simp [moved, hs])
    | false =>
      cases shown with
      | live => exact .inl (by simp [moved, hs])
      | failed =>
        refine .inr (.inr (.inl ?_))
        rw [show p.moved .failed false = p.unbindMoved .failed by simp [moved, hs], hfailed]
        exact htold
      | loading =>
        refine .inr (.inr (.inr ⟨rfl, fun _ => rfl, ?_⟩))
        rw [show p.moved .loading false = p.unbindMoved .loading by simp [moved, hs],
          hloading]

theorem removed_cases (p : Provider) : p.removed = (p, []) ∨ p.Drops p.removed := by
  unfold removed
  cases hs : p.hold with
  | unplaced | refused | released => exact .inl rfl
  | pending | binding | bound => exact .inr (Drops.of_hold rfl rfl (.inl rfl))

theorem start_cases (p : Provider) (refuse : Bool) :
    p.start refuse = (p, []) ∨ p.Drops (p.start refuse) := by
  unfold start
  cases hs : p.hold with
  | unplaced =>
    refine .inr ?_
    cases refuse with
    | true => exact Drops.of_hold rfl rfl (.inl rfl)
    | false => exact Drops.of_hold rfl rfl (.inr (.inr (.inr ⟨rfl, by rw [hs]; rfl⟩)))
  | refused | released | pending | binding | bound => exact .inl rfl

theorem restart_cases (p : Provider) : p.restart = (p, []) ∨ p.Drops p.restart := by
  unfold restart
  cases hs : p.hold with
  | refused => exact .inr (Drops.of_hold rfl rfl (.inr (.inl rfl)))
  | unplaced | released | pending | binding | bound => exact .inl rfl

theorem ended_cases (p : Provider) : p.ended = (p, []) ∨ p.Drops p.ended := by
  unfold ended
  cases hs : p.hold with
  | released => exact .inl rfl
  | unplaced | refused | pending | binding | bound =>
    exact .inr (Drops.of_hold rfl rfl (.inr (.inr (.inl rfl))))

end Provider

namespace Link

variable {s : Link} {names : Names}

theorem Decodes.of_nameless (h : s.provider.hold.keeps = none) : s.Decodes where
  alone _ hn := by rw [h] at hn; cases hn
  acked _ _ _ hn := by rw [h] at hn; cases hn
  waiting _ _ _ hn := by rw [h] at hn; cases hn

theorem Inv.drops {step : Provider × List Down} (h : s.Inv)
    (hstep : step = (s.provider, []) ∨ s.provider.Drops step) : (s.provide step).Inv := by
  rcases hstep with rfl | hd
  · refine h.provide rfl rfl rfl ?_
    exact h.decodes.provide rfl rfl (by simp)
  · refine h.provide hd.acked ?_ hd.follows (Decodes.of_nameless hd.nameless)
    rw [hd.silent, hd.sent]
    rfl

theorem Decodes.of_speaks (hnames : s.provider.hold.keeps = some (names, none))
    (hs : s.Speaks names) : s.Decodes where
  alone other hn := by
    rw [hnames] at hn
    cases hn
    exact hs
  acked _ _ _ hn := by rw [hnames] at hn; cases hn
  waiting _ _ _ hn := by rw [hnames] at hn; cases hn

theorem Inv.moved (h : s.Inv) (shown : Shown) (attachable : Bool)
    (hkeeps : shown = .loading → attachable = false → s.KeepsNames) :
    (s.provide (s.provider.moved shown attachable)).Inv := by
  obtain hidle | ⟨told, previous, hs, hbind⟩ | hd | ⟨rfl, hatt, hload⟩ :=
    s.provider.moved_cases shown attachable
  · exact h.drops (.inl hidle)
  · rw [hbind]
    refine h.provide rfl rfl (by rw [hs]; rfl) ?_
    cases previous with
    | none => exact Decodes.of_nameless rfl
    | some names =>
      refine Decodes.of_speaks rfl ((h.decodes.alone names ?_).provide (by simp))
      rw [hs]
      rfl
  · exact h.drops (.inr hd)
  · rw [hload]
    refine h.provide rfl rfl (by cases s.provider.hold.isBound <;> rfl) ?_
    cases hn : s.provider.names with
    | none => exact Decodes.of_nameless rfl
    | some names =>
      refine Decodes.of_speaks rfl ((h.decodes.speaks ?_ hn).provide (by simp))
      intro names previous until_ hb
      exact hkeeps rfl (hatt (by rw [hb]; rfl)) names previous until_ hb

theorem Inv.bindTo (h : s.Inv) (names : Names)
    (hspeaks : s.provider.hold = .binding none → s.Speaks names) :
    (s.provide (s.provider.bindTo names)).Inv := by
  unfold Provider.bindTo
  cases hs : s.provider.hold with
  | unplaced | refused | released | pending | bound => exact h.drops (.inl rfl)
  | binding previous =>
    refine h.provide rfl rfl (by rw [hs]; rfl) ?_
    cases previous with
    | none =>
      refine Decodes.of_speaks rfl ((hspeaks hs).provide ?_)
      intro bound kept hb
      simp only [mem_singleton, Down.bound.injEq] at hb
      exact hb.1
    | some previous =>
      have hdec : s.Speaks previous := h.decodes.alone previous (by rw [hs]; rfl)
      have hcount := h.counted
      constructor
      · intro _ hn
        cases hn
      · intro _ _ _ hn hu
        cases hn
        have hle : s.provider.ownSent + 1 ≤ s.provider.ownAcked := hu
        omega
      · intro _ _ _ hn _
        cases hn
        refine .inl ⟨s.down, [], rfl, ?_, hdec.calls, hdec.live, hdec.bounds, by simp⟩
        simp only [Link.provide]
        omega

theorem Inv.own (h : s.Inv) :
    (s.provide ({ s.provider with ownSent := s.provider.ownSent + 1 }, [.own])).Inv := by
  refine h.provide rfl rfl (by cases s.provider.hold.isBound <;> rfl) ?_
  exact h.decodes.provide rfl rfl (by simp)

/-! ### What arrives -/

section Arrive

variable {previous : Names} {until_ index : ℕ} {sent : Names} {up : List Up}

theorem Decodes.head (h : s.Decodes) (hup : s.up = .call index sent :: up)
    (hn : s.provider.names = some names) : sent = names := by
  have hmem : Up.call index sent ∈ s.up := by simp [hup]
  obtain hs | ⟨current, until_, -, -, hphase⟩ := h.cases hn
  · exact hs.calls index sent hmem
  · rcases hphase with ⟨_, _, -, -, hcalls, -⟩ | ⟨pre, post, hsplit, -, hpre, -⟩
    · exact hcalls index sent hmem
    · cases pre with
      | nil =>
        rw [hup] at hsplit
        cases hsplit
      | cons head pre =>
        rw [hup, cons_append, cons.injEq] at hsplit
        exact hpre index sent (by simp [← hsplit.1])

theorem Speaks.arrive {message : Up} {s' : Link} (h : s.Speaks names) (hup : s.up = message :: up)
    (hup' : s'.up = up) (hconsumer : s'.consumer = s.consumer) (hdown : s'.down = s.down) :
    s'.Speaks names := by
  refine ⟨fun index' bound hc => h.calls index' bound ?_, hconsumer ▸ h.live, hdown ▸ h.bounds⟩
  rw [hup, ← hup']
  exact mem_cons_of_mem _ hc

theorem Inv.answer_right (h : s.Inv) (hup : s.up = .call index sent :: up) :
    Answer.Right ⟨index, sent, s.provider.method index⟩ := by
  have hlt := h.calls index sent (by simp [hup])
  unfold Answer.Right Provider.method
  cases hs : s.provider.hold with
  | released => exact .inr (.inl rfl)
  | unplaced | refused | pending | binding | bound =>
    cases hn : s.provider.names with
    | none => exact .inl rfl
    | some names =>
      have heq : sent = names := h.decodes.head hup hn
      subst heq
      refine .inr (.inr ⟨sent[index], ?_, getElem?_eq_getElem hlt⟩)
      simp [getElem?_eq_getElem hlt]

theorem Inv.arrive_call (h : s.Inv) (hup : s.up = .call index sent :: up) :
    ({ s with up }.answer index sent).Inv where
  calls index names hc := h.calls index names (hup ▸ mem_cons_of_mem _ hc)
  queued := h.queued
  counted := by
    have hcount := h.counted
    rw [hup, acks_call] at hcount
    exact hcount
  released hr := h.released (hup ▸ mem_cons_of_mem _ hr)
  alternates := h.alternates
  decodes := by
    refine h.decodes.mono rfl rfl ?_ ?_ ?_
    · exact fun names hsp => hsp.arrive hup rfl rfl rfl
    · rintro previous names until_ ⟨pre, post, hdown, hcount, hcalls, hlive, hpre, hpost⟩
      refine .inl ⟨pre, post, hdown, ?_, fun index' bound hc => hcalls index' bound ?_, hlive,
        hpre, hpost⟩
      · rw [hup, acks_call] at hcount
        exact hcount
      · simp [hup, show Up.call index' bound ∈ up from hc]
    · rintro previous names until_ ⟨pre, post, hsplit, hcount, hpre, hpost, hlive, hdown⟩
      cases pre with
      | nil =>
        rw [hup] at hsplit
        cases hsplit
      | cons head pre =>
        rw [hup, cons_append, cons.injEq] at hsplit
        obtain ⟨rfl, hsplit⟩ := hsplit
        rw [acks_call] at hcount
        exact ⟨pre, post, hsplit, hcount, fun index' bound hc => hpre index' bound (by simp [hc]),
          hpost, hlive, hdown⟩
  right answer ha := by
    rcases mem_append.mp ha with ha | ha
    · exact h.right answer ha
    · rw [mem_singleton.mp ha]
      exact h.answer_right hup

theorem Decodes.acknowledge (h : s.Decodes) (hup : s.up = .ack :: up) :
    Decodes { s with up, provider := { s.provider with ownAcked := s.provider.ownAcked + 1 } } where
  alone names hn := (h.alone names hn).arrive hup rfl rfl rfl
  acked names previous until_ hn hle := by
    change until_ ≤ s.provider.ownAcked + 1 at hle
    by_cases hu : until_ ≤ s.provider.ownAcked
    · exact (h.acked names previous until_ hn hu).arrive hup rfl rfl rfl
    · rcases h.waiting names previous until_ hn (by omega) with
        ⟨pre, post, -, hcount, -⟩ | ⟨pre, post, hsplit, hcount, -, hpost, hlive, hdown⟩
      · rw [hup, acks_ack] at hcount
        omega
      · rw [hup] at hsplit
        cases pre with
        | nil =>
          simp only [nil_append, cons.injEq, true_and] at hsplit
          subst hsplit
          exact ⟨hpost, hlive, fun bound kept hb => absurd hb (hdown bound kept)⟩
        | cons head pre =>
          obtain ⟨rfl, -⟩ := cons.inj hsplit
          rw [acks_ack] at hcount
          omega
  waiting names previous until_ hn hlt := by
    change s.provider.ownAcked + 1 < until_ at hlt
    rcases h.waiting names previous until_ hn (by omega) with
      ⟨pre, post, hdown, hcount, hcalls, hlive, hpre, hpost⟩ |
      ⟨pre, post, hsplit, hcount, hpre, hpost, hlive, hdown⟩
    · rw [hup, acks_ack] at hcount
      refine .inl ⟨pre, post, hdown, ?_, fun index' bound hc => hcalls index' bound ?_, hlive,
        hpre, hpost⟩
      · change s.provider.ownAcked + 1 + acks up + owns pre + 1 = until_
        omega
      · simp [hup, show Up.call index' bound ∈ up from hc]
    · rw [hup] at hsplit
      cases pre with
      | nil =>
        rw [acks_nil] at hcount
        omega
      | cons head pre =>
        obtain ⟨rfl, hrest⟩ := cons.inj hsplit
        rw [acks_ack] at hcount
        refine .inr ⟨pre, post, hrest, ?_, fun index' bound hc => ?_, hpost, hlive, hdown⟩
        · change s.provider.ownAcked + 1 + acks pre + 1 = until_
          omega
        · exact hpre index' bound (by simp [hc])

theorem Inv.arrive_ack (h : s.Inv) (hup : s.up = .ack :: up) :
    Inv { s with up, provider := { s.provider with ownAcked := s.provider.ownAcked + 1 } } where
  calls index names hc := h.calls index names (hup ▸ mem_cons_of_mem _ hc)
  queued := h.queued
  counted := by
    have hcount := h.counted
    rw [hup, acks_ack] at hcount
    change s.provider.ownAcked + 1 + acks up + owns s.down = s.provider.ownSent
    omega
  released hr := h.released (hup ▸ mem_cons_of_mem _ hr)
  alternates := h.alternates
  decodes := h.decodes.acknowledge hup
  right := h.right

theorem Inv.arrive_release (h : s.Inv) (hup : s.up = .release :: up) :
    Inv { s with up, provider := { s.provider with hold := .released } } where
  calls index names hc := h.calls index names (hup ▸ mem_cons_of_mem _ hc)
  queued := h.queued
  counted := by
    have hcount := h.counted
    rw [hup, acks_release] at hcount
    exact hcount
  released hr := h.released (hup ▸ mem_cons_of_mem _ hr)
  alternates := .inl (h.released (by simp [hup]))
  decodes := Decodes.of_nameless rfl
  right := h.right

theorem Inv.arrive (h : s.Inv) : s.arrive.Inv := by
  unfold Link.arrive
  cases hup : s.up with
  | nil => exact h
  | cons message up =>
    cases message with
    | call index sent => exact h.arrive_call hup
    | ack => exact h.arrive_ack hup
    | release => exact h.arrive_release hup

end Arrive

/-! ### Every run -/

theorem fresh_inv : fresh.Inv where
  calls _ _ hc := by cases hc
  queued := Consumer.Queued.of_nil rfl
  counted := rfl
  released hr := by cases hr
  alternates := .inr rfl
  decodes := Decodes.of_nameless rfl
  right _ ha := by cases ha

theorem Inv.perform (h : s.Inv) (act : Act) (hsafe : s.Safe act) : (s.perform act).Inv := by
  cases act with
  | moved shown attachable =>
    refine h.moved shown attachable ?_
    rintro rfl rfl
    exact hsafe
  | bindTo names => exact h.bindTo names hsafe
  | own => exact h.own
  | removed => exact h.drops s.provider.removed_cases
  | start refuse => exact h.drops (s.provider.start_cases refuse)
  | restart => exact h.drops s.provider.restart_cases
  | ended => exact h.drops s.provider.ended_cases
  | deliver meanwhile room oversized =>
    refine h.deliver meanwhile room oversized ?_
    rintro rfl
    exact hsafe
  | call method free => exact h.consume (Consumer.sends_call h.queued method free)
  | drain => exact h.consume (Consumer.sends_drain h.queued)
  | cancelParked place =>
    refine h.consume (Consumer.Sends.idle rfl ?_)
    exact h.queued.sublist rfl (List.Sublist.refl _)
  | cancelQueued place =>
    refine h.consume (Consumer.Sends.idle rfl ?_)
    exact h.queued.sublist rfl (eraseIdx_sublist _ _)
  | release => exact h.consume (Consumer.sends_release h.queued)
  | arrive => exact h.arrive

end Link

/-- Along every run whose steps keep the names of the calls under way, each call ran as the method
its consumer meant, or was refused. -/
theorem calls_run_as_meant {s : Link} (h : system.ReachableBy Link.Safe s) :
    ∀ answer ∈ s.answers, answer.Right := by
  obtain ⟨s₀, rfl, hrun⟩ := h
  have hinv : s.Inv := by
    refine hrun.invariant ?_ Link.fresh_inv
    rintro t act u ht hsafe ⟨-, rfl⟩
    exact ht.perform act hsafe
  exact hinv.right

/-! ### A rebinding -/

def bindTwo : List Act :=
  [.start false, .moved .live true, .bindTo [ascii "a", ascii "b"], .deliver [] 0 false]

/-- A call crosses a rebinding with other names; a second one follows it by the new names. -/
def crossing : List Act :=
  bindTwo ++ [.call (ascii "b") true, .moved .loading false, .moved .live true,
    .bindTo [ascii "b"], .deliver [] 0 false, .deliver [] 0 false, .call (ascii "b") true,
    .arrive, .arrive, .arrive, .arrive]

def crossed : Link :=
  crossing.foldl Link.perform Link.fresh

theorem calls_run_as_meant_crossed :
    Answer.Right ⟨1, [ascii "a", ascii "b"], .dispatched (ascii "b")⟩ := by
  have hback : ∀ s : Link, s.consumer.parked = [] → s.HoldsBack [] 0 :=
    fun _ _ _ _ _ _ => .inr rfl
  have hrun : system.Along Link.Safe Link.perform Link.fresh crossing := by
    refine ⟨⟨rfl, rfl⟩, trivial, ⟨rfl, rfl⟩, trivial, ⟨rfl, rfl⟩, ?_, ⟨rfl, rfl⟩, hback _ rfl,
      ⟨rfl, rfl⟩, trivial, ⟨rfl, rfl⟩, ?_, ⟨rfl, rfl⟩, trivial, ⟨rfl, rfl⟩, ?_, ⟨rfl, rfl⟩,
      hback _ rfl, ⟨rfl, rfl⟩, hback _ rfl, ⟨rfl, rfl⟩, trivial, ⟨rfl, rfl⟩, trivial, ⟨rfl, rfl⟩,
      trivial, ⟨rfl, rfl⟩, trivial, ⟨rfl, rfl⟩, trivial, trivial⟩
    · refine fun _ => ⟨?_, ?_, ?_⟩
      · intro index sent hc
        cases hc
      · intro bound hb
        cases hb
      · intro bound kept hb
        cases hb
    · intro names previous until_ hb
      cases hb
    · intro hb
      cases hb
  exact calls_run_as_meant ⟨Link.fresh, rfl, hrun.steps⟩ _ (by decide)

example : crossed.answers.map Answer.outcome =
    [.dispatched (ascii "b"), .dispatched (ascii "b")] := by decide

/-- A call is made while the hold is rebinding. -/
def parking : List Act :=
  bindTwo ++ [.arrive, .moved .loading false, .deliver [] 0 false, .call (ascii "b") true,
    .moved .live true, .bindTo [ascii "b"], .deliver [] 1 false, .arrive]

/-- A call parked while the hold was rebinding goes out before the acknowledgement of its `bound`:
it carries the index of `b` in the new names and runs as `a`, which has that index in the old. -/
theorem parked_call_runs_as_another :
    ¬ ∀ s, system.Reachable s → ∀ answer ∈ s.answers, answer.Right := by
  intro h
  have hrun : system.Along (fun _ _ => True) Link.perform Link.fresh parking :=
    ⟨⟨rfl, rfl⟩, trivial, ⟨rfl, rfl⟩, trivial, ⟨rfl, rfl⟩, trivial, ⟨rfl, rfl⟩, trivial, ⟨rfl, rfl⟩,
      trivial, ⟨rfl, rfl⟩, trivial, ⟨rfl, rfl⟩, trivial, ⟨rfl, rfl⟩, trivial, ⟨rfl, rfl⟩, trivial,
      ⟨rfl, rfl⟩, trivial, ⟨rfl, rfl⟩, trivial, ⟨rfl, rfl⟩, trivial, trivial⟩
  have hr := h _ ⟨_, rfl, hrun.steps⟩ ⟨0, [ascii "b"], .dispatched (ascii "a")⟩ (by decide)
  rcases hr with hr | hr | ⟨name, hr, hn⟩
  · cases hr
  · cases hr
  · cases hr
    exact absurd hn (by decide)

end KnightCode.Naming
