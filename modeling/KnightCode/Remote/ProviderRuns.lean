import KnightCode.Library.System
import KnightCode.Remote.Provider

/-!
# The window of a provider side

The messages in flight on the link, and the acknowledgements on their way back, are the queue of
senders: so every acknowledgement reaches the host that sent its message. What this host has in
flight is counted, and state or a binding waits only while the window is full.
-/

namespace KnightCode.Remote

open List Delta

variable {Failure : Type}

/-! ### A provider side and its link -/

/-- What happens at the host of a provider side. -/
inductive ProviderAct (Failure : Type)
  | hold (id : ℕ) (placement : Placement Failure)
  | release (id : ℕ)
  | call (message : CallMessage Failure) (notReady unavailable : Failure)
  | abort (call : ℕ)
  | retry (hold : ℕ) (placement : Placement Failure)
  | close
  | answered (call : ℕ) (reply : Reply Failure)
  | moved (hold : ℕ) (shown : RefState Failure) (attached : Bool)
  | removed (hold : ℕ) (error : Failure)
  | ended (hold : ℕ) (error : Failure)
  | touch (hold index : ℕ) (change : WatchCall Failure)
  | flush
  | attach (relay link : ℕ)
  | forward (message : ConsumerMessage Failure) (link : ℕ)
  | upstreamDropped (relay : ℕ) (error : Failure)
  | unreachable (relay : ℕ) (error : Failure)
  | revoked (relay : ℕ) (error : Failure)
  | unlinked (link : ℕ)

def ProviderSide.perform (objects : Objects Failure) (side : ProviderSide Failure) :
    ProviderAct Failure → ProviderSide Failure
  | .hold id placement => side.hold id placement objects
  | .release id => side.release id
  | .call message notReady unavailable => side.call message notReady unavailable objects
  | .abort call => side.abort call
  | .retry hold placement => side.restart hold placement objects
  | .close => side.close
  | .answered call reply => side.reply call reply objects
  | .moved hold shown attached => side.moved hold shown attached objects
  | .removed hold error => side.removed hold error objects
  | .ended hold error => side.ended hold error
  | .touch hold index change => side.touch hold index change
  | .flush => side.flush
  | .attach relay link => side.attach relay link
  | .forward message link => side.forward message link objects
  | .upstreamDropped relay error => side.upstreamDropped relay error objects
  | .unreachable relay error => side.send (.failed (side.relays relay).id error)
  | .revoked relay error => side.revoked relay error
  | .unlinked link => side.unlinked link

/-- A provider side, what its host's objects show, how many messages the consumer handled, and the
senders of the messages whose acknowledgement is on its way. -/
structure Session (Failure : Type) where
  objects : Objects Failure
  side : ProviderSide Failure
  delivered : ℕ
  acks : List Sender

inductive SessionAct (Failure : Type)
  | host (act : ProviderAct Failure)
  | objects (objects : Objects Failure)
  | deliver
  | ack

namespace Session

/-- The messages the consumer has not handled. -/
def underway (session : Session Failure) : List (Departure Failure) :=
  session.side.out.drop session.delivered

/-- The consumer handles the messages in order and acknowledges each `bound` and `state`. -/
inductive Step : Session Failure → SessionAct Failure → Session Failure → Prop
  | host (s : Session Failure) (act : ProviderAct Failure) :
    Step s (.host act) { s with side := s.side.perform s.objects act }
  | objects (s : Session Failure) (objects : Objects Failure) :
    Step s (.objects objects) { s with objects := objects }
  | deliver (s : Session Failure) (departure : Departure Failure) (rest : List (Departure Failure))
      (h : s.underway = departure :: rest) :
    Step s .deliver
      { s with delivered := s.delivered + 1, acks := s.acks ++ departure.sender.toList }
  | ack (s : Session Failure) (sender : Sender) (rest : List Sender)
      (h : s.acks = sender :: rest) (hopen : s.side.closed = false) :
    Step s .ack { s with side := s.side.ack s.objects, acks := rest }

def system (limit : ℕ) (objects : Objects Failure) :
    System (Session Failure) (SessionAct Failure) where
  init := (· = ⟨objects, .new limit, 0, []⟩)
  step := Step

end Session

/-- Whether a message answers a call. -/
def ConsumerMessage.isReply : ConsumerMessage Failure → Bool
  | .reply _ _ => true
  | _ => false

def UpstreamMessage.isAck : UpstreamMessage → Bool
  | .ack => true
  | _ => false

/-- The answer of an admitted call leaves after the waiting state. -/
def Departure.Follows (departure : Departure Failure) : Prop :=
  departure.message.isReply = true → departure.refusal = false → departure.waiting = []

namespace ProviderSide
variable {side side' : ProviderSide Failure} {message : ConsumerMessage Failure}

/-! ### What an operation sends -/

/-- The counters agree with the queue of senders. -/
structure Counts (side : ProviderSide Failure) : Prop where
  inFlight : side.inFlight = side.sent.count .own
  acked : side.ownSent = side.ownAcked + side.inFlight

/-- State or a binding waits only while the window is full. -/
def Waits (side : ProviderSide Failure) : Prop :=
  side.waiting ≠ [] ∨ side.binding ≠ [] → WINDOW ≤ side.inFlight

/-- What leaves joins the messages in flight. -/
structure Sends (side side' : ProviderSide Failure) : Prop where
  departures : ∃ more : List (Departure Failure), side'.out = side.out ++ more ∧
    side'.sent = side.sent ++ more.filterMap (·.sender) ∧ ∀ departure ∈ more, departure.Follows
  counts : Counts side → Counts side'
  acked : side'.ownAcked = side.ownAcked
  waits : Waits side → Waits side'

theorem Sends.refl (side : ProviderSide Failure) : Sends side side :=
  ⟨⟨[], by simp, by simp, fun _ h => by cases h⟩, id, rfl, id⟩

variable {side side' side'' : ProviderSide Failure}

theorem Sends.trans (h : Sends side side') (h' : Sends side' side'') : Sends side side'' := by
  obtain ⟨more, hout, hsent, hmore⟩ := h.departures
  obtain ⟨more', hout', hsent', hmore'⟩ := h'.departures
  refine ⟨⟨more ++ more', ?_, ?_, ?_⟩, h'.counts ∘ h.counts, h'.acked.trans h.acked,
    h'.waits ∘ h.waits⟩
  · rw [hout', hout, append_assoc]
  · rw [hsent', hsent, filterMap_append, append_assoc]
  · intro departure hm
    obtain hm | hm := mem_append.mp hm
    · exact hmore departure hm
    · exact hmore' departure hm

/-- Nothing is sent, and no more waits. -/
structure Quiet (side side' : ProviderSide Failure) : Prop where
  out : side'.out = side.out
  sent : side'.sent = side.sent
  inFlight : side'.inFlight = side.inFlight
  ownSent : side'.ownSent = side.ownSent
  ownAcked : side'.ownAcked = side.ownAcked
  waiting : side'.waiting ≠ [] → side.waiting ≠ []
  binding : side'.binding ≠ [] → side.binding ≠ []

theorem Quiet.sends (h : Quiet side side') : Sends side side' := by
  refine ⟨⟨[], by simp [h.out], by simp [h.sent], fun _ h => by cases h⟩, fun hc => ?_, h.ownAcked,
    fun hw hwait => ?_⟩
  · refine ⟨?_, ?_⟩
    · rw [h.inFlight, h.sent]
      exact hc.inFlight
    · rw [h.ownSent, h.ownAcked, h.inFlight]
      exact hc.acked
  · rw [h.inFlight]
    exact hw (hwait.imp h.waiting h.binding)

theorem Quiet.refl (side : ProviderSide Failure) : Quiet side side :=
  ⟨rfl, rfl, rfl, rfl, rfl, id, id⟩

theorem Quiet.trans (h : Quiet side side') (h' : Quiet side' side'') : Quiet side side'' :=
  ⟨h'.out.trans h.out, h'.sent.trans h.sent, h'.inFlight.trans h.inFlight, h'.ownSent.trans
    h.ownSent, h'.ownAcked.trans h.ownAcked, h.waiting ∘ h'.waiting, h.binding ∘ h'.binding⟩

theorem quiet_modify (hold : ℕ) (change : Hold Failure → Hold Failure)
    (side : ProviderSide Failure) : Quiet side (side.modify hold change) :=
  ⟨rfl, rfl, rfl, rfl, rfl, id, id⟩

theorem quiet_unbind (hold : ℕ) (side : ProviderSide Failure) : Quiet side (side.unbind hold) := by
  refine ⟨rfl, rfl, rfl, rfl, rfl, fun h => ?_, fun h => ?_⟩
  · rintro hnil
    exact h (by simp [unbind, hnil])
  · rintro hnil
    exact h (by simp [unbind, hnil])

theorem quiet_sendUpstream (link : ℕ) (message : UpstreamMessage) (side : ProviderSide Failure) :
    Quiet side (side.sendUpstream link message) :=
  ⟨rfl, rfl, rfl, rfl, rfl, id, id⟩

variable (objects : Objects Failure) (entry : Entry)

theorem quiet_drop (side : ProviderSide Failure) : Quiet side (side.drop entry) := by
  cases entry with
  | served hold | relayed hold => exact ⟨rfl, rfl, rfl, rfl, rfl, id, id⟩

theorem quiet_close (side : ProviderSide Failure) : Quiet side side.close := by
  have hdropped : ∀ entries : List (ℕ × Entry), ∀ side : ProviderSide Failure,
      Quiet side (entries.foldl (fun side entry => side.drop entry.2) side) := by
    intro entries
    induction entries with
    | nil => exact Quiet.refl
    | cons entry entries ih => exact fun side => (quiet_drop entry.2 side).trans (ih _)
  have h := hdropped side.entries side
  exact { h with }

theorem quiet_settle (side : ProviderSide Failure) : Quiet side side.settle := by
  unfold settle
  split_ifs
  · exact quiet_close side
  · exact .refl side

theorem sends_send (h : message.isReply = true → side.waiting = []) :
    Sends side (side.send message) := by
  refine ⟨⟨_, rfl, by simp [send], fun departure hm => ?_⟩, fun hc => ⟨hc.inFlight, hc.acked⟩, rfl,
    id⟩
  rw [mem_singleton.mp hm]
  exact fun hreply _ => h hreply

theorem sends_sendOwn (h : message.isReply = false) : Sends side (side.sendOwn message) := by
  refine ⟨⟨_, rfl, by simp [sendOwn], fun departure hm => ?_⟩, fun hc => ⟨?_, ?_⟩, rfl,
    fun hw hwait => ?_⟩
  · rw [mem_singleton.mp hm]
    intro hreply
    rw [h] at hreply
    cases hreply
  · simp [sendOwn, hc.inFlight]
  · simp only [sendOwn, hc.acked]
    omega
  · exact Nat.le_succ_of_le (hw hwait)

theorem sends_sendWaiting (side : ProviderSide Failure) :
    Sends side (side.sendWaiting objects) := by
  have hquiet : Quiet side
      { side with
        waiting := []
        bindingTurn := side.binding ≠ []
        holds := (each (fun _ => Hold.pendingEntry objects.sources) side.waiting side.holds).2 } :=
    ⟨rfl, rfl, rfl, rfl, rfl, fun h => absurd rfl h, id⟩
  exact hquiet.sends.trans (sends_sendOwn rfl)

theorem sends_sendBindings (side : ProviderSide Failure) :
    Sends side (side.sendBindings objects) := by
  have hquiet : Quiet side
      { side with
        binding := []
        bindingTurn := false
        holds := (each (fun hold => Hold.boundEntry objects.sources (objects.instances hold))
          side.binding side.holds).2 } :=
    ⟨rfl, rfl, rfl, rfl, rfl, id, fun h => absurd rfl h⟩
  exact hquiet.sends.trans (sends_sendOwn rfl)

theorem waits_of_not_free (hfree : side.free = false) (hsame : side'.inFlight = side.inFlight)
    (hw : Waits side) : Waits side' := by
  intro _
  rw [hsame]
  simp only [free, decide_eq_false_iff_not, not_and_or] at hfree
  obtain hwait | hwait | hfull := hfree
  · exact hw (.inr hwait)
  · exact hw (.inl hwait)
  · exact not_lt.mp hfull

theorem sends_bind (hold : ℕ) (objects : Objects Failure) (side : ProviderSide Failure) :
    Sends side (side.bind hold objects) := by
  unfold bind
  cases hfree : side.free with
  | true =>
    simp only [if_true]
    have hquiet : Quiet side
        { side with
          holds := Function.update side.holds hold
            ((side.holds hold).boundEntry objects.sources (objects.instances hold)).2 } :=
      ⟨rfl, rfl, rfl, rfl, rfl, id, id⟩
    exact hquiet.sends.trans (sends_sendOwn rfl)
  | false =>
    simp only [Bool.false_eq_true, if_false]
    split_ifs
    · exact .refl side
    · exact ⟨⟨[], by simp, by simp, fun _ h => by cases h⟩, fun hc => ⟨hc.inFlight, hc.acked⟩, rfl,
        waits_of_not_free hfree rfl⟩

theorem sends_fillSlots (room : ℕ) (side : ProviderSide Failure) :
    Sends side (side.fillSlots objects room) := by
  induction room generalizing side with
  | zero => exact .refl side
  | succ room ih =>
    rw [fillSlots]
    split_ifs
    · exact (sends_sendBindings objects side).trans (ih _)
    · exact (sends_sendWaiting objects side).trans (ih _)
    · exact .refl side

theorem not_free_wait (hold : ℕ) (side : ProviderSide Failure) : (side.wait hold).free = false := by
  have hwaiting : (side.wait hold).waiting ≠ [] := by
    simp only [wait]
    split_ifs with hm
    · exact ne_nil_of_mem hm
    · simp
  simp [free, hwaiting]

theorem sends_wait (hfree : side.free = false) (holds : List ℕ) :
    Sends side (holds.foldl (fun side hold => side.wait hold) side) := by
  induction holds generalizing side with
  | nil => exact .refl side
  | cons hold holds ih =>
    have hwait : Sends side (side.wait hold) :=
      ⟨⟨[], by simp [wait, modify], by simp [wait, modify], fun _ h => by cases h⟩,
        fun hc => ⟨hc.inFlight, hc.acked⟩, rfl, waits_of_not_free hfree rfl⟩
    exact hwait.trans (ih (not_free_wait hold side))

theorem sends_flush (side : ProviderSide Failure) : Sends side side.flush := by
  have htaken : Quiet side { side with touched := [] } := ⟨rfl, rfl, rfl, rfl, rfl, id, id⟩
  unfold flush
  cases hfree : side.free with
  | true =>
    simp only [if_true]
    split_ifs
    · exact htaken.sends
    · have hquiet : Quiet side
          { side with
            touched := []
            holds := (each (fun _ => Hold.entry)
              (side.touched.filter fun hold => (side.holds hold).bound) side.holds).2 } :=
        ⟨rfl, rfl, rfl, rfl, rfl, id, id⟩
      exact hquiet.sends.trans (sends_sendOwn rfl)
  | false =>
    simp only [Bool.false_eq_true, if_false]
    have htouched : ({ side with touched := [] } : ProviderSide Failure).free = false := hfree
    exact htaken.sends.trans (sends_wait htouched _)

theorem sends_reply (call : ℕ) (reply : Reply Failure) (objects : Objects Failure)
    (side : ProviderSide Failure) : Sends side (side.reply call reply objects) := by
  unfold ProviderSide.reply
  cases Assoc.get call side.calls with
  | none => exact .refl side
  | some entry =>
    have hended : Quiet side { side with calls := Assoc.erase call side.calls } :=
      ⟨rfl, rfl, rfl, rfl, rfl, id, id⟩
    dsimp only
    split_ifs with hwaiting
    · refine ((hended.sends.trans (sends_sendWaiting objects _)).trans
        (sends_send fun _ => ?_)).trans (quiet_settle _).sends
      rfl
    · exact (hended.sends.trans (sends_send fun _ => not_not.mp hwaiting)).trans
        (quiet_settle _).sends

theorem sends_refuse (call : ℕ) (error : Failure) (side : ProviderSide Failure) :
    Sends side (side.refuse call error) := by
  refine ⟨⟨_, rfl, by simp [refuse], fun departure hm => ?_⟩, fun hc => ⟨hc.inFlight, hc.acked⟩,
    rfl, id⟩
  rw [mem_singleton.mp hm]
  intro _ hrefusal
  cases hrefusal

theorem sends_replyAll (error : Failure) (objects : Objects Failure) (side : ProviderSide Failure) :
    Sends side (side.replyAll entry error objects) := by
  have hcalls : ∀ calls : List (ℕ × Entry), ∀ side : ProviderSide Failure, Sends side
      (calls.foldl (fun side call => side.reply call.1 (.error error) objects) side) := by
    intro calls
    induction calls with
    | nil => exact Sends.refl
    | cons call calls ih => exact fun side => (sends_reply call.1 _ objects side).trans (ih _)
  exact hcalls _ side

theorem sends_call (message : CallMessage Failure) (notReady unavailable : Failure)
    (objects : Objects Failure) (side : ProviderSide Failure) :
    Sends side (side.call message notReady unavailable objects) := by
  have hregistered : ∀ entry, Quiet side
      { side with calls := Assoc.set message.call entry side.calls } :=
    fun _ => ⟨rfl, rfl, rfl, rfl, rfl, id, id⟩
  unfold ProviderSide.call
  by_cases hused : (Assoc.get message.call side.calls).isSome = true
  · rw [if_pos hused]
    exact (quiet_close side).sends
  rw [if_neg hused]
  cases Assoc.get message.hold side.entries with
  | none => exact .refl side
  | some entry =>
    dsimp only
    by_cases hlimit : side.limit ≤ side.calls.length
    · rw [if_pos hlimit]
      exact (quiet_close side).sends
    rw [if_neg hlimit]
    cases entry with
    | relayed hold =>
      dsimp only
      cases message.oversized with
      | some error => exact sends_refuse _ error side
      | none =>
        cases (side.relays hold).upstream with
        | none => exact (hregistered _).sends.trans (sends_reply _ _ objects _)
        | some link => exact ((hregistered _).trans (quiet_sendUpstream link _ _)).sends
    | served hold =>
      dsimp only
      split_ifs
      · exact sends_refuse _ _ side
      · exact (quiet_close side).sends
      cases message.oversized with
      | some error => exact sends_refuse _ error side
      | none => exact (hregistered _).sends

theorem quiet_abort (call : ℕ) (side : ProviderSide Failure) : Quiet side (side.abort call) := by
  unfold ProviderSide.abort
  have haborted : Quiet side { side with calls := Assoc.erase call side.calls } :=
    ⟨rfl, rfl, rfl, rfl, rfl, id, id⟩
  cases Assoc.get call side.calls with
  | none => exact quiet_settle side
  | some entry =>
    cases entry with
    | served hold => exact haborted.trans (quiet_settle _)
    | relayed hold =>
      dsimp only
      cases (side.relays hold).upstream with
      | none => exact haborted.trans (quiet_settle _)
      | some link =>
        exact (haborted.trans (quiet_sendUpstream link _ _)).trans (quiet_settle _)

theorem quiet_forget (id : ℕ) (side : ProviderSide Failure) :
    Quiet side (side.forget entry id) := by
  unfold forget
  cases entry with
  | served hold =>
    have hforgotten : Quiet side
        { side with
          entries := if Assoc.get id side.entries = some (.served hold) then
            Assoc.erase id side.entries else side.entries
          calls := side.calls.filter (·.2 ≠ .served hold) } :=
      ⟨rfl, rfl, rfl, rfl, rfl, fun h => h, fun h => h⟩
    exact (hforgotten.trans (quiet_unbind hold _)).trans (quiet_settle _)
  | relayed hold =>
    have hforgotten : Quiet side
        { side with
          entries := if Assoc.get id side.entries = some (.relayed hold) then
            Assoc.erase id side.entries else side.entries
          calls := side.calls.filter (·.2 ≠ .relayed hold) } :=
      ⟨rfl, rfl, rfl, rfl, rfl, fun h => h, fun h => h⟩
    exact hforgotten.trans (quiet_settle _)

theorem sends_unbound (hold : ℕ) (error : Failure) (objects : Objects Failure)
    (side : ProviderSide Failure) : Sends side (side.unbound hold error objects) :=
  (quiet_unbind hold side).sends.trans (sends_replyAll _ error objects _)

theorem sends_movePending (hold : ℕ) (shown : RefState Failure) (objects : Objects Failure)
    (side : ProviderSide Failure) : Sends side (side.movePending hold shown objects) := by
  unfold movePending
  cases (side.holds hold).state with
  | pending told previous =>
    cases shown with
    | live => exact (quiet_modify _ _ _).sends.trans (sends_bind hold objects _)
    | failed error =>
      exact (sends_send fun hfalse => by cases hfalse).trans (quiet_modify _ _ _).sends
    | loading =>
      cases told with
      | none => exact .refl side
      | some error =>
        exact (sends_send fun hfalse => by cases hfalse).trans (quiet_modify _ _ _).sends
  | _ => exact .refl side

theorem sends_unbindHold (hold : ℕ) (error : Option Failure) (objects : Objects Failure)
    (side : ProviderSide Failure) : Sends side (side.unbindHold hold error objects) := by
  unfold unbindHold
  cases error with
  | some error =>
    exact ((quiet_modify _ _ _).sends.trans (sends_unbound hold error objects _)).trans
      (quiet_modify _ _ _).sends
  | none =>
    have hquiet := (quiet_modify hold Hold.unfollow side).trans (quiet_unbind hold _)
    exact (hquiet.trans (quiet_modify _ _ _)).sends.trans
      (sends_send fun hfalse => by cases hfalse)

theorem sends_moved (hold : ℕ) (shown : RefState Failure) (attached : Bool)
    (objects : Objects Failure) (side : ProviderSide Failure) :
    Sends side (side.moved hold shown attached objects) := by
  have hmoves : ∀ error, Sends side
      ((side.unbindHold hold error objects).movePending hold shown objects) :=
    fun error => (sends_unbindHold hold error objects side).trans
      (sends_movePending hold shown objects _)
  unfold moved
  cases (side.holds hold).state with
  | bound object followed | binding previous =>
    dsimp only
    split_ifs
    · exact .refl side
    · exact hmoves _
  | _ => exact sends_movePending hold shown objects side

theorem sends_refuseHold (hold : ℕ) (error : Failure) (side : ProviderSide Failure) :
    Sends side (side.refuseHold hold error) :=
  (quiet_modify _ _ _).sends.trans (sends_send fun hfalse => by cases hfalse)

theorem sends_removed (hold : ℕ) (error : Failure) (objects : Objects Failure)
    (side : ProviderSide Failure) : Sends side (side.removed hold error objects) := by
  have hremoved : Sends side
      (((side.modify hold Hold.unfollow).unbound hold error objects).refuseHold hold error) :=
    ((quiet_modify _ _ _).sends.trans (sends_unbound hold error objects _)).trans
      (sends_refuseHold hold error _)
  unfold removed
  cases (side.holds hold).state with
  | pending told previous | binding previous | bound object followed => exact hremoved
  | _ => exact .refl side

theorem quiet_attach (hold link : ℕ) (side : ProviderSide Failure) :
    Quiet side (side.attach hold link) :=
  ⟨rfl, rfl, rfl, rfl, rfl, id, id⟩

theorem sends_start (hold : ℕ) (placement : Placement Failure) (objects : Objects Failure)
    (side : ProviderSide Failure) : Sends side (side.start hold placement objects) := by
  unfold start
  cases placement with
  | unplaced => exact (quiet_modify _ _ _).sends
  | refused error => exact sends_refuseHold hold error side
  | path upstream =>
    cases upstream with
    | none | some link =>
      apply Quiet.sends
      exact ⟨rfl, rfl, rfl, rfl, rfl, id, id⟩
  | object shown => exact sends_movePending hold shown objects side

theorem sends_hold (id : ℕ) (placement : Placement Failure) (objects : Objects Failure)
    (side : ProviderSide Failure) : Sends side (side.hold id placement objects) := by
  unfold ProviderSide.hold
  split_ifs
  · exact (quiet_close side).sends
  · have hmade : Quiet side
        { side with
          entries := Assoc.set id (.served side.made) side.entries
          holds := Function.update side.holds side.made (Hold.new id)
          made := side.made + 1 } := ⟨rfl, rfl, rfl, rfl, rfl, fun h => h, fun h => h⟩
    exact hmade.sends.trans (sends_start _ placement objects _)

theorem sends_restart (hold : ℕ) (placement : Placement Failure) (objects : Objects Failure)
    (side : ProviderSide Failure) : Sends side (side.restart hold placement objects) := by
  unfold restart
  cases (side.holds hold).state with
  | unplaced => exact (quiet_modify _ _ _).sends.trans (sends_start hold placement objects _)
  | refused error =>
    exact ((quiet_modify _ _ _).sends.trans (sends_send fun hfalse => by cases hfalse)).trans
      (sends_start hold placement objects _)
  | _ => exact .refl side

theorem quiet_release (id : ℕ) (side : ProviderSide Failure) : Quiet side (side.release id) := by
  unfold release
  cases Assoc.get id side.entries with
  | none => exact quiet_settle side
  | some entry =>
    cases entry with
    | served hold =>
      exact ((quiet_forget _ id side).trans (quiet_drop _ _)).trans (quiet_settle _)
    | relayed hold =>
      have hreleased := (quiet_forget (.relayed hold) id side).trans (quiet_drop (.relayed hold) _)
      dsimp only
      cases (side.relays hold).upstream with
      | none => exact hreleased.trans (quiet_settle _)
      | some link => exact (hreleased.trans (quiet_sendUpstream link _ _)).trans (quiet_settle _)

theorem sends_ended (hold : ℕ) (error : Failure) (side : ProviderSide Failure) :
    Sends side (side.ended hold error) := by
  have hended : Sends side (((side.forget (.served hold) (side.holds hold).id).drop
      (.served hold)).send (.gone (side.holds hold).id error)) :=
    ((quiet_forget _ _ side).trans (quiet_drop _ _)).sends.trans
      (sends_send fun hfalse => by cases hfalse)
  unfold ended
  cases (side.holds hold).state with
  | released => exact .refl side
  | _ => exact hended

theorem sends_forwardState (h : message.isReply = false) (link : ℕ) (side : ProviderSide Failure) :
    Sends side (side.forwardState message link) := by
  refine ⟨⟨_, rfl, by simp [forwardState], fun departure hm => ?_⟩, fun hc => ⟨?_, hc.acked⟩, rfl,
    fun hw => hw⟩
  · rw [mem_singleton.mp hm]
    intro hreply
    rw [h] at hreply
    cases hreply
  · simp [forwardState, hc.inFlight]

theorem sends_forward (message : ConsumerMessage Failure) (link : ℕ) (objects : Objects Failure)
    (side : ProviderSide Failure) : Sends side (side.forward message link objects) := by
  unfold forward
  by_cases hlink : link ∉ side.relay.getD []
  · rw [if_pos hlink]
    exact .refl side
  rw [if_neg hlink]
  cases message with
  | bound holds | state holds =>
    dsimp only
    split_ifs
    · exact (quiet_sendUpstream link _ side).sends
    · exact sends_forwardState rfl link side
  | reply call reply =>
    dsimp only
    cases Assoc.get call side.calls with
    | none => exact .refl side
    | some entry =>
      cases entry with
      | served hold => exact .refl side
      | relayed hold =>
        dsimp only
        split_ifs
        · exact sends_reply call reply objects side
        · exact .refl side
  | gone id error =>
    dsimp only
    cases side.relayedHold id link with
    | none => exact .refl side
    | some hold =>
      exact ((quiet_drop (.relayed hold) side).trans (quiet_forget _ id _)).sends.trans
        (sends_send fun hfalse => by cases hfalse)
  | failed id error | loading id =>
    dsimp only
    split_ifs
    · exact sends_send fun hfalse => by cases hfalse
    · exact .refl side

theorem sends_upstreamDropped (hold : ℕ) (error : Failure) (objects : Objects Failure)
    (side : ProviderSide Failure) : Sends side (side.upstreamDropped hold error objects) := by
  unfold upstreamDropped
  cases (side.relays hold).upstream with
  | none => exact .refl side
  | some link =>
    exact ((quiet_drop (.relayed hold) side).sends.trans (sends_replyAll _ error objects _)).trans
      (sends_send fun hfalse => by cases hfalse)

theorem sends_revoked (hold : ℕ) (error : Failure) (side : ProviderSide Failure) :
    Sends side (side.revoked hold error) :=
  ((quiet_drop (.relayed hold) side).trans (quiet_forget _ _ _)).sends.trans
    (sends_send fun hfalse => by cases hfalse)

theorem quiet_touch (hold index : ℕ) (change : WatchCall Failure) (side : ProviderSide Failure) :
    Quiet side (side.touch hold index change) := by
  unfold touch
  split_ifs <;> exact ⟨rfl, rfl, rfl, rfl, rfl, id, id⟩

theorem sends_perform (side : ProviderSide Failure) (act : ProviderAct Failure) :
    Sends side (side.perform objects act) := by
  cases act with
  | hold id placement => exact sends_hold id placement objects side
  | release id => exact (quiet_release id side).sends
  | call message notReady unavailable =>
    exact sends_call message notReady unavailable objects side
  | abort call => exact (quiet_abort call side).sends
  | retry hold placement => exact sends_restart hold placement objects side
  | close => exact (quiet_close side).sends
  | answered call reply => exact sends_reply call reply objects side
  | moved hold shown attached => exact sends_moved hold shown attached objects side
  | removed hold error => exact sends_removed hold error objects side
  | ended hold error => exact sends_ended hold error side
  | touch hold index change => exact (quiet_touch hold index change side).sends
  | flush => exact sends_flush side
  | attach relay link => exact (quiet_attach relay link side).sends
  | forward message link => exact sends_forward message link objects side
  | upstreamDropped relay error => exact sends_upstreamDropped relay error objects side
  | unreachable relay error => exact sends_send fun hfalse => by cases hfalse
  | revoked relay error => exact sends_revoked relay error side
  | unlinked link =>
    apply Quiet.sends
    exact ⟨rfl, rfl, rfl, rfl, rfl, id, id⟩

/-! ### Acknowledgements -/

theorem fillSlots_waits {room : ℕ} (h : WINDOW ≤ side.inFlight + room) :
    Waits (side.fillSlots objects room) := by
  induction room generalizing side with
  | zero => exact fun _ => h
  | succ room ih =>
    have hnext : WINDOW ≤ side.inFlight + 1 + room := by omega
    rw [fillSlots]
    split_ifs with hbinding hwaiting
    · exact ih hnext
    · exact ih hnext
    · intro hwait
      simp only [not_and, not_or] at hbinding
      obtain hwait | hwait := hwait
      · exact absurd hwait hwaiting
      · exact absurd (not_not.mp hwaiting) (hbinding hwait).1

/-- The upstream links acknowledged so far, in order. -/
def acknowledged (side : ProviderSide Failure) : List ℕ :=
  (side.upstream.filter fun sent => sent.2.isAck).map Prod.fst

theorem acknowledged_close (side : ProviderSide Failure) :
    side.close.acknowledged = side.acknowledged := by
  have hdropped : ∀ entries : List (ℕ × Entry), ∀ side : ProviderSide Failure,
      (entries.foldl (fun side entry => side.drop entry.2) side).upstream = side.upstream := by
    intro entries
    induction entries with
    | nil => exact fun _ => rfl
    | cons entry entries ih =>
      intro side
      rw [foldl_cons, ih]
      cases hentry : entry.2 <;> simp [drop, modify]
  have hclosed : ∀ links : List ℕ, (links.map fun link => (link, UpstreamMessage.closed)).filter
      (fun sent => sent.2.isAck) = [] := by
    intro links
    simp [UpstreamMessage.isAck]
  simp only [acknowledged, close, hdropped, filter_append, hclosed, append_nil]

theorem acknowledged_settle (side : ProviderSide Failure) :
    side.settle.acknowledged = side.acknowledged := by
  unfold settle
  split_ifs
  · exact acknowledged_close side
  · rfl

theorem upstream_fillSlots (room : ℕ) (side : ProviderSide Failure) :
    (side.fillSlots objects room).upstream = side.upstream := by
  induction room generalizing side with
  | zero => rfl
  | succ room ih =>
    rw [fillSlots]
    split_ifs
    · exact ih _
    · exact ih _
    · rfl

/-- An acknowledgement frees a slot of this host when it answers a message of this host's own, and
goes to the upstream link it answers otherwise. -/
def Attributed (sender : Sender) (side side' : ProviderSide Failure) : Prop :=
  match sender with
  | .own => side'.ownAcked = side.ownAcked + 1 ∧ side'.acknowledged = side.acknowledged
  | .link link =>
    side'.ownAcked = side.ownAcked ∧ side'.acknowledged = side.acknowledged ++ [link]

theorem attributed_ack {sender : Sender} {sent : List Sender} (h : side.sent = sender :: sent) :
    Attributed sender side (side.ack objects) := by
  unfold ProviderSide.ack
  rw [h]
  cases sender with
  | own =>
    refine ⟨?_, ?_⟩
    · rw [(quiet_settle _).ownAcked]
      exact (sends_fillSlots objects _ _).acked
    · rw [acknowledged_settle]
      simp only [acknowledged, slotFreed, upstream_fillSlots]
  | link link =>
    refine ⟨(quiet_settle _).ownAcked, ?_⟩
    rw [acknowledged_settle]
    simp [acknowledged, sendUpstream, UpstreamMessage.isAck]

end ProviderSide

namespace Session
variable {s : Session Failure}

open ProviderSide

/-! ### Runs -/

/-- What holds between a provider side and its link. -/
structure Flow (s : Session Failure) : Prop where
  /-- The queue of senders is that of the messages unacknowledged on the link. -/
  order : s.side.sent = s.acks ++ s.underway.filterMap (·.sender)
  delivered : s.delivered ≤ s.side.out.length
  counts : Counts s.side
  follows : ∀ departure ∈ s.side.out, departure.Follows

variable {side : ProviderSide Failure}

theorem flow_sends (h : Flow s) (hsends : Sends s.side side) :
    Flow { s with side := side } := by
  obtain ⟨more, hout, hsent, hmore⟩ := hsends.departures
  refine ⟨?_, ?_, hsends.counts h.counts, fun departure hm => ?_⟩
  · have hunderway : ({ s with side := side } : Session Failure).underway = s.underway ++ more := by
      simp only [underway, hout, drop_append_of_le_length h.delivered]
    rw [hunderway, filterMap_append, ← append_assoc, ← h.order]
    exact hsent
  · simp only [hout, length_append]
    exact Nat.le_add_right_of_le h.delivered
  · simp only [hout, mem_append] at hm
    obtain hm | hm := hm
    · exact h.follows departure hm
    · exact hmore departure hm

theorem flow_deliver (h : Flow s) {departure : Departure Failure} {rest : List (Departure Failure)}
    (hunderway : s.underway = departure :: rest) :
    Flow { s with delivered := s.delivered + 1, acks := s.acks ++ departure.sender.toList } := by
  have hlt : s.delivered < s.side.out.length := by
    by_contra hge
    rw [underway, drop_eq_nil_of_le (not_lt.mp hge)] at hunderway
    cases hunderway
  refine ⟨?_, hlt, h.counts, h.follows⟩
  have hrest : ({ s with
      delivered := s.delivered + 1
      acks := s.acks ++ departure.sender.toList } : Session Failure).underway = rest := by
    have htail := congrArg tail hunderway
    simpa [underway] using htail
  rw [hrest, h.order, hunderway]
  cases hsender : departure.sender with
  | none => simp [hsender]
  | some sender => simp [hsender]

theorem sent_of_acks (h : Flow s) {sender : Sender} {rest : List Sender}
    (hacks : s.acks = sender :: rest) :
    s.side.sent = sender :: (rest ++ s.underway.filterMap (·.sender)) := by
  rw [h.order, hacks]
  rfl

theorem flow_ack (h : Flow s) {sender : Sender} {rest : List Sender}
    (hacks : s.acks = sender :: rest) :
    Flow { s with side := s.side.ack s.objects, acks := rest } := by
  have hsent := sent_of_acks h hacks
  have hcount := h.counts.inFlight
  rw [hsent] at hcount
  unfold ProviderSide.ack
  rw [hsent]
  cases sender with
  | link link =>
    have hpopped : Flow (Session.mk s.objects
        { s.side with sent := rest ++ s.underway.filterMap (·.sender) } s.delivered rest) :=
      ⟨rfl, h.delivered, ⟨by simpa using hcount, h.counts.acked⟩, h.follows⟩
    exact flow_sends hpopped ((quiet_sendUpstream link .ack _).trans (quiet_settle _)).sends
  | own =>
    rw [count_cons_self] at hcount
    have hacked := h.counts.acked
    have hpopped : Flow (Session.mk s.objects
        { s.side with
          sent := rest ++ s.underway.filterMap (·.sender)
          inFlight := s.side.inFlight - 1
          ownAcked := s.side.ownAcked + 1 } s.delivered rest) := by
      refine ⟨rfl, h.delivered, ⟨?_, ?_⟩, h.follows⟩
      · simp only [hcount]
        omega
      · dsimp only
        omega
    exact flow_sends hpopped ((sends_fillSlots s.objects _ _).trans (quiet_settle _).sends)

theorem waits_ack (h : Waits side) (objects : Objects Failure) :
    Waits (side.ack objects) := by
  unfold ProviderSide.ack
  cases hsent : side.sent with
  | nil => exact (quiet_settle side).sends.waits h
  | cons sender sent =>
    cases sender with
    | link link =>
      exact ((quiet_sendUpstream link .ack _).trans (quiet_settle _)).sends.waits
        (fun hwait => h hwait)
    | own =>
      apply (quiet_settle _).sends.waits
      apply fillSlots_waits
      dsimp only
      omega

structure Inv (s : Session Failure) : Prop extends Flow s where
  waits : Waits s.side

theorem inv_step {s' : Session Failure} {a : SessionAct Failure} (h : Inv s) (hstep : Step s a s') :
    Inv s' := by
  cases hstep with
  | host act =>
    have hsends := sends_perform s.objects s.side act
    exact ⟨flow_sends h.toFlow hsends, hsends.waits h.waits⟩
  | objects objects => exact ⟨⟨h.order, h.delivered, h.counts, h.follows⟩, h.waits⟩
  | deliver departure rest hunderway => exact ⟨flow_deliver h.toFlow hunderway, h.waits⟩
  | ack sender rest hacks hopen =>
    exact ⟨flow_ack h.toFlow hacks, waits_ack h.waits s.objects⟩

/-- While something waits, a message of this host's own or its acknowledgement is still to come. -/
def Comes (s : Session Failure) : Prop :=
  .own ∈ s.acks ∨ ∃ departure ∈ s.underway, departure.sender = some .own

/-- What is promised of a provider side, in one state and of every step from it. -/
structure Routed (s : Session Failure) : Prop where
  order : s.side.sent = s.acks ++ s.underway.filterMap (·.sender)
  inFlight : s.side.inFlight = s.side.sent.count .own
  waits : s.side.waiting ≠ [] ∨ s.side.binding ≠ [] → WINDOW ≤ s.side.inFlight ∧ s.Comes
  follows : ∀ departure ∈ s.side.out, departure.message.isReply = true →
    departure.refusal = false → departure.waiting = []
  attributed : ∀ s' sender rest, s.acks = sender :: rest → Step s .ack s' →
    Attributed sender s.side s'.side

/-- However batches, relayed messages, acknowledgements, bindings, answers and upstream closes
interleave, every acknowledgement reaches the sender of its message, what waits finds the window
full, and the answer of an admitted call leaves after the waiting state. -/
theorem session_routed (limit : ℕ) (objects : Objects Failure) (s : Session Failure)
    (h : (system limit objects).Reachable s) : Routed s := by
  have hinv : Inv s := by
    apply h.invariant
    · rintro s rfl
      exact ⟨⟨rfl, le_refl 0, ⟨rfl, rfl⟩, fun _ hm => by cases hm⟩, fun hwait => by
        simp [ProviderSide.new] at hwait⟩
    · exact fun s a s' hI _ hstep => inv_step hI hstep
  refine ⟨hinv.order, hinv.counts.inFlight, fun hwait => ⟨hinv.waits hwait, ?_⟩, hinv.follows,
    fun s' sender rest hacks hstep => ?_⟩
  · have hfull := hinv.waits hwait
    have hmem : Sender.own ∈ s.side.sent := by
      rw [← count_pos_iff, ← hinv.counts.inFlight]
      exact lt_of_lt_of_le Nat.zero_lt_two hfull
    rw [hinv.order, mem_append, mem_filterMap] at hmem
    exact hmem
  · cases hstep with
    | ack sender' rest' hacks' hopen =>
      rw [hacks] at hacks'
      cases hacks'
      exact attributed_ack s.objects (sent_of_acks hinv.toFlow hacks)

/-! ### A refusal while state waits -/

def after (limit : ℕ) (objects : Objects Failure) (acts : List (ProviderAct Failure)) :
    Session Failure :=
  ⟨objects, acts.foldl (fun side act => side.perform objects act) (.new limit), 0, []⟩

theorem reachable_after (limit : ℕ) (objects : Objects Failure)
    (acts : List (ProviderAct Failure)) :
    (system limit objects).Reachable (after limit objects acts) := by
  have hsteps : ∀ side : ProviderSide Failure, (system limit objects).Steps (fun _ _ => True)
      ⟨objects, side, 0, []⟩
      ⟨objects, acts.foldl (fun side act => side.perform objects act) side, 0, []⟩ := by
    induction acts with
    | nil => exact fun _ => .refl _
    | cons act acts ih =>
      intro side
      have hfirst : (system limit objects).Steps (fun _ _ => True) ⟨objects, side, 0, []⟩
          ⟨objects, side.perform objects act, 0, []⟩ :=
        (System.Steps.refl _).tail (Step.host _ act) trivial
      exact hfirst.trans (ih _)
  exact ⟨_, rfl, hsteps _⟩

/-- Two bindings fill the window, a change of the first hold waits, and a call on a hold that is not
bound yet is refused. -/
def refusing : Session Unit :=
  after 1 ⟨fun _ => .value .null, fun _ => ⟨0, [.source 0]⟩⟩
    [.hold 0 (.object .live), .hold 1 (.object .live), .hold 2 (.object .loading),
      .touch 0 0 (.value ⟨.bool true, [.replace (.bool true)], false⟩), .flush,
      .call ⟨0, 2, false, none⟩ () ()]

theorem refusal_overtakes : ¬ ∀ (limit : ℕ) (objects : Objects Unit) (s : Session Unit),
    (system limit objects).Reachable s → ∀ departure ∈ s.side.out,
      departure.message.isReply = true → departure.waiting = [] := by
  intro h
  have hout : (refusing.side.out.any fun departure =>
      departure.message.isReply && !departure.waiting.isEmpty) = true := by rfl
  obtain ⟨departure, hm, hoverdue⟩ := any_eq_true.mp hout
  simp only [Bool.and_eq_true, Bool.not_eq_true'] at hoverdue
  have hwaiting := h _ _ refusing (reachable_after _ _ _) departure hm hoverdue.1
  simp [hwaiting] at hoverdue

theorem session_routed_refusing : refusing.side.waiting = [0] ∧ Routed refusing :=
  ⟨rfl, session_routed _ _ refusing (reachable_after _ _ _)⟩

end Session

end KnightCode.Remote
