import KnightCode.Watch.Native

/-!
# The array of a native watch and its queue

The array holds the pairs that wait, behind slots that are empty because they were taken. Each of
its operations does what the queue's does, so under any acts both watches have the same flags, show
the same value and hand out the same calls.
-/

namespace KnightCode

open List Option

variable {V C E : Type}

namespace NativeWatch

def pair (entry : V × C) : List (Option (NativeSlot V C)) :=
  [some (.value entry.1), some (.context entry.2)]

/-- The array holds exactly what waits, and its taken slots are empty. -/
structure Holds (n : NativeWatch V C E) (r : NativeReference V C E) : Prop where
  replace : n.replace = r.replace
  waits : match r.waiting with
    | .values entries =>
      n.failure = none ∧ n.failureContext = none ∧
        n.pending = replicate n.head none ++ entries.flatMap pair ∧
        n.head < 2 * MAX_PENDING_NATIVE_VALUES ∧ entries.length ≤ MAX_PENDING_NATIVE_VALUES
    | .failed error context =>
      n.failure = some error ∧ n.failureContext = some context ∧ n.pending = [] ∧ n.head = 0

variable {n : NativeWatch V C E} {r : NativeReference V C E}

theorem length_flatMap_pair (entries : List (V × C)) :
    (entries.flatMap pair).length = 2 * entries.length := by
  induction entries with
  | nil => rfl
  | cons entry entries ih =>
    rw [flatMap_cons, length_append, ih, length_cons, pair]
    simp only [length_cons, length_nil]
    omega

theorem holds_new (replace : Bool) :
    Holds (⟨[], 0, replace, none, none⟩ : NativeWatch V C E) ⟨replace, .values []⟩ := by
  refine ⟨rfl, rfl, rfl, rfl, ?_, ?_⟩ <;> simp [MAX_PENDING_NATIVE_VALUES]

theorem holds_release (n : NativeWatch V C E) (r : NativeReference V C E) :
    Holds n.release r.release :=
  holds_new false

theorem holds_fail (h : Holds n r) (error : E) (context : C) :
    Holds (n.fail error context) (r.fail error context) :=
  ⟨h.replace, rfl, rfl, rfl, rfl⟩

theorem holds_advance (h : Holds n r) (value replaced : V) (context : C) :
    Holds (n.advance value replaced context) (r.advance value replaced context) := by
  obtain ⟨hreplace, hwaits⟩ := h
  obtain ⟨replace, waiting⟩ := r
  cases waiting with
  | failed error failed =>
    obtain ⟨-, -, hpending, hhead⟩ := hwaits
    have hroom : n.pending.length - n.head < 2 * MAX_PENDING_NATIVE_VALUES := by
      simp [hpending, hhead, MAX_PENDING_NATIVE_VALUES]
    rw [advance, if_pos hroom, NativeReference.advance]
    refine ⟨hreplace, rfl, rfl, ?_, ?_, ?_⟩
    · simp [hpending, hhead, pair]
    · simp [hhead, MAX_PENDING_NATIVE_VALUES]
    · simp [MAX_PENDING_NATIVE_VALUES]
  | values entries =>
    obtain ⟨-, -, hpending, hhead, hlength⟩ := hwaits
    have hcount : n.pending.length - n.head = 2 * entries.length := by
      rw [hpending, length_append, length_replicate, length_flatMap_pair]
      omega
    rw [advance, hcount]
    by_cases hroom : entries.length < MAX_PENDING_NATIVE_VALUES
    · simp only [NativeReference.advance, if_pos hroom]
      rw [if_pos (by omega)]
      refine ⟨hreplace, rfl, rfl, ?_, hhead, ?_⟩
      · simp [hpending, pair]
      · simp only [length_append, length_singleton]
        omega
    · simp only [NativeReference.advance, if_neg hroom]
      rw [if_neg (by omega)]
      have hgiven : n.replace = replace := hreplace
      refine ⟨hreplace, rfl, rfl, ?_, ?_, ?_⟩
      · simp [hgiven, pair]
      · simp [MAX_PENDING_NATIVE_VALUES]
      · simp [MAX_PENDING_NATIVE_VALUES]

theorem Holds.pendingContext (h : Holds n r) :
    n.pendingContext = r.pendingContext.map .context := by
  obtain ⟨-, hwaits⟩ := h
  obtain ⟨replace, waiting⟩ := r
  cases waiting with
  | failed error context =>
    obtain ⟨-, hcontext, -, -⟩ := hwaits
    rw [NativeWatch.pendingContext, hcontext]
    rfl
  | values entries =>
    obtain ⟨-, hcontext, hpending, -, -⟩ := hwaits
    rw [NativeWatch.pendingContext, hcontext, hpending,
      getElem?_append_right (by simp)]
    cases entries <;> simp [pair, NativeReference.pendingContext]

theorem holds_taken {entry : V × C} {rest : List (V × C)} {replace : Bool}
    (h : Holds n ⟨replace, .values (entry :: rest)⟩) : Holds n.taken ⟨replace, .values rest⟩ := by
  obtain ⟨hreplace, hfailure, hcontext, hpending, hhead, hlength⟩ := h
  have hsplit : n.pending = replicate n.head none ++ (pair entry ++ rest.flatMap pair) := by
    rw [hpending, flatMap_cons]
  have hsize : n.pending.length = n.head + 2 + 2 * rest.length := by
    rw [hsplit]
    simp only [length_append, length_replicate, length_flatMap_pair, pair, length_cons, length_nil]
    omega
  rw [length_cons] at hlength
  have hdrop : n.pending.drop (n.head + 2) = rest.flatMap pair := by
    rw [hsplit, ← append_assoc]
    exact drop_left' (by simp [pair])
  rw [taken]
  split_ifs with hlast hfull
  · -- the last pair: the array is emptied
    have hnil : rest = [] := length_eq_zero_iff.mp (by omega)
    rw [hnil]
    refine ⟨hreplace, hfailure, hcontext, rfl, ?_, ?_⟩ <;> simp [MAX_PENDING_NATIVE_VALUES]
  · -- a backlog that never drained: the taken prefix is dropped
    refine ⟨hreplace, hfailure, hcontext, ?_, ?_, by omega⟩
    have htake : (copyWithin (n.head + 2) n.pending).take (n.pending.length - (n.head + 2)) =
        n.pending.drop (n.head + 2) := by
      apply take_left'
      rw [length_drop]
    · simp only [htake, hdrop, replicate_zero, nil_append]
    · simp [MAX_PENDING_NATIVE_VALUES]
  · -- otherwise the pair's slots are cleared
    refine ⟨hreplace, hfailure, hcontext, ?_, ?_, by omega⟩
    · have hclear : (n.pending.set n.head none).set (n.head + 1) none =
          replicate n.head none ++ ([none, none] ++ rest.flatMap pair) := by
        rw [hsplit, set_append_right _ _ (by simp), set_append_right _ _ (by simp)]
        simp [pair]
      simp only [hclear, ← append_assoc, replicate_add]
      rfl
    · dsimp only
      omega

def read (call : NativeWatchCall V E) : NativeWatchCall (Option (NativeSlot V C)) E :=
  match call with
  | .value value => .value (some (.value value))
  | .failed error => .failed error

theorem Holds.next (h : Holds n r) (hpending : r.pendingContext.isSome = true) :
    ∃ call n' r', n.next = some (read call, n') ∧ r.next = some (call, r') ∧ Holds n' r' := by
  have hwaits := h.waits
  obtain ⟨replace, waiting⟩ := r
  cases waiting with
  | failed error context =>
    obtain ⟨hfailure, hcontext, harray, hhead⟩ := hwaits
    refine ⟨.failed error, { n with failure := none, failureContext := none }, _, ?_, rfl,
      h.replace, rfl, rfl, ?_, ?_, ?_⟩
    · rw [NativeWatch.next, hfailure]
      rfl
    · simp [harray, hhead]
    · simp [hhead, MAX_PENDING_NATIVE_VALUES]
    · simp [MAX_PENDING_NATIVE_VALUES]
  | values entries =>
    cases entries with
    | nil => cases hpending
    | cons entry rest =>
      obtain ⟨hfailure, -, harray, -, -⟩ := hwaits
      refine ⟨.value entry.1, _, _, ?_, rfl, holds_taken h⟩
      have hvalue : n.pending[n.head]?.join = some (.value entry.1) := by
        rw [harray, getElem?_append_right (by simp)]
        simp [pair]
      rw [NativeWatch.next, hfailure, hvalue]
      rfl

/-! ### Both watches under the same acts -/

/-- The same flags, the same value shown, and the array holds what waits. -/
structure Alike (w : WatchLifecycle (NativeWatch V C E) (Option (NativeSlot V C)) E)
    (u : WatchLifecycle (NativeReference V C E) V E) : Prop where
  flags : w.flags = u.flags
  value : w.value = some (.value u.value)
  pending : Holds w.queue u.queue

/-- A call with its context, as the array hands it out. -/
def readCall (called : NativeWatchCall V E × C) :
    NativeWatchCall (Option (NativeSlot V C)) E × NativeSlot V C :=
  (read called.1, .context called.2)

/-- What an act that may call the listener leaves. -/
def Delivers
    (a : WatchLifecycle (NativeWatch V C E) (Option (NativeSlot V C)) E ×
      Option (NativeWatchCall (Option (NativeSlot V C)) E × NativeSlot V C))
    (b : WatchLifecycle (NativeReference V C E) V E × Option (NativeWatchCall V E × C)) : Prop :=
  Alike a.1 b.1 ∧ a.2 = b.2.map readCall

variable {w : WatchLifecycle (NativeWatch V C E) (Option (NativeSlot V C)) E}
  {u : WatchLifecycle (NativeReference V C E) V E}

theorem Alike.withFlags (h : Alike w u) {f g : WatchFlags E} (hfg : f = g) :
    Alike { w with flags := f } { u with flags := g } :=
  ⟨hfg, h.value, h.pending⟩

theorem Alike.terminate (h : Alike w u) (result : WatchEnd E) :
    Alike (w.terminate queue result) (u.terminate NativeReference.queue result) := by
  rw [WatchLifecycle.terminate, WatchLifecycle.terminate, h.flags]
  split_ifs
  · exact h
  · exact ⟨rfl, h.value, holds_release w.queue u.queue⟩

theorem Alike.advance (h : Alike w u) (value replaced : V) (context : C) :
    Alike (w.advance queue value replaced context)
      (u.advance NativeReference.queue value replaced context) := by
  rw [WatchLifecycle.advance, WatchLifecycle.advance, h.flags]
  split_ifs
  · exact ⟨rfl, h.value, holds_advance h.pending value replaced context⟩
  · exact h

theorem Alike.fail (h : Alike w u) (error : E) (context : C) :
    Alike (w.fail queue error context) (u.fail NativeReference.queue error context) := by
  rw [WatchLifecycle.fail, WatchLifecycle.fail, h.flags]
  split_ifs
  · exact ⟨rfl, h.value, holds_fail h.pending error context⟩
  · exact h

theorem Alike.start (h : Alike w u) : Alike w.start u.start := by
  rw [WatchLifecycle.start, WatchLifecycle.start, h.flags]
  split_ifs
  · exact h
  · exact h.withFlags rfl

theorem Alike.observeAbort (h : Alike w u) (aborted : Bool) :
    Alike (w.observeAbort queue aborted) (u.observeAbort NativeReference.queue aborted) := by
  rw [WatchLifecycle.observeAbort, WatchLifecycle.observeAbort, h.flags]
  split_ifs
  · exact h
  · exact (h.withFlags rfl).terminate _
  · exact h.withFlags rfl

theorem Alike.endAfterDelivery (h : Alike w u) :
    Alike (w.endAfterDelivery queue) (u.endAfterDelivery NativeReference.queue) := by
  have hnone : (queue.pendingContext w.queue).isNone =
      (NativeReference.queue.pendingContext u.queue).isNone := by
    change w.queue.pendingContext.isNone = u.queue.pendingContext.isNone
    rw [h.pending.pendingContext]
    simp
  rw [WatchLifecycle.endAfterDelivery, WatchLifecycle.endAfterDelivery, h.flags, hnone]
  split_ifs
  · exact h
  · exact (h.withFlags rfl).terminate _
  · exact h.withFlags rfl

theorem Alike.rest (h : Alike w u) : Alike w.rest u.rest :=
  h.withFlags (by rw [h.flags])

theorem Alike.loop (h : Alike w u) : Delivers (w.loop queue) (u.loop NativeReference.queue) := by
  have hcontext : queue.pendingContext w.queue =
      (NativeReference.queue.pendingContext u.queue).map .context := h.pending.pendingContext
  rw [WatchLifecycle.loop, WatchLifecycle.loop, h.flags, hcontext]
  by_cases hover : (u.flags.terminated.isSome || !u.flags.listener) = true
  · rw [if_pos hover, if_pos hover]
    exact ⟨h.rest, rfl⟩
  · rw [if_neg hover, if_neg hover]
    cases hpending : NativeReference.queue.pendingContext u.queue with
    | none =>
      simp only [map_none]
      refine ⟨Alike.rest ?_, rfl⟩
      split_ifs
      · exact h.terminate _
      · exact h
    | some context =>
      obtain ⟨call, n', r', hnext, hnext', hholds⟩ :=
        h.pending.next (by
          change (NativeReference.queue.pendingContext u.queue).isSome = true
          rw [hpending]
          rfl)
      have hw : queue.next w.queue = some (read call, n') := hnext
      have hu : NativeReference.queue.next u.queue = some (call, r') := hnext'
      simp only [hw, hu, map_some]
      refine ⟨⟨?_, ?_, hholds⟩, rfl⟩
      · simp only [WatchLifecycle.called, h.flags]
      · cases call with
        | value value => rfl
        | failed error => exact h.value

theorem Alike.microtask (h : Alike w u) :
    Delivers (w.microtask queue) (u.microtask NativeReference.queue) := by
  rw [WatchLifecycle.microtask, WatchLifecycle.microtask, h.flags]
  dsimp only
  split_ifs
  · exact ⟨h.withFlags rfl, rfl⟩
  · exact (h.withFlags rfl).loop

theorem Alike.returned (h : Alike w u) :
    Delivers (w.returned queue) (u.returned NativeReference.queue) := by
  rw [WatchLifecycle.returned, WatchLifecycle.returned, h.flags]
  exact (h.withFlags rfl).loop

theorem Alike.threw (h : Alike w u) (error : E) : Alike (w.threw error) (u.threw error) := by
  rw [WatchLifecycle.threw, WatchLifecycle.threw, h.flags]
  split_ifs
  · exact h.withFlags rfl
  · exact h.withFlags rfl

theorem Alike.reported (h : Alike w u) (toError : E → E) (error : E) :
    Alike (w.reported queue toError error) (u.reported NativeReference.queue toError error) := by
  rw [WatchLifecycle.reported, WatchLifecycle.reported, h.flags]
  exact ((h.withFlags rfl).terminate _).rest

/-- Alike watches whose listeners got the same calls. -/
structure Refines
    (s : NativeWatching (NativeWatch V C E) (Option (NativeSlot V C)) (NativeSlot V C) E)
    (t : NativeWatching (NativeReference V C E) V C E) : Prop where
  watch : Alike s.watch t.watch
  log : s.log = t.log.map readCall

variable {s : NativeWatching (NativeWatch V C E) (Option (NativeSlot V C)) (NativeSlot V C) E}
  {t : NativeWatching (NativeReference V C E) V C E}

theorem refines_new (replace : Bool) (value : V) :
    Refines (new replace value : NativeWatching (NativeWatch V C E) _ _ E)
      (NativeReference.new replace value) :=
  ⟨⟨rfl, rfl, holds_new replace⟩, rfl⟩

theorem Refines.deliver (h : Refines s t)
    {a : WatchLifecycle (NativeWatch V C E) (Option (NativeSlot V C)) E ×
      Option (NativeWatchCall (Option (NativeSlot V C)) E × NativeSlot V C)}
    {b : WatchLifecycle (NativeReference V C E) V E × Option (NativeWatchCall V E × C)}
    (hab : Delivers a b) : Refines (s.deliver a) (t.deliver b) := by
  obtain ⟨halike, hcall⟩ := hab
  refine ⟨halike, ?_⟩
  simp only [NativeWatching.deliver, h.log, hcall, map_append]
  cases b.2 <;> rfl

theorem Refines.perform (h : Refines s t) (toError : E → E) (act : NativeAct V C E) :
    Refines (s.perform queue toError act) (t.perform NativeReference.queue toError act) := by
  have hflags := h.watch.flags
  cases act with
  | advance value replaced context => exact ⟨h.watch.advance value replaced context, h.log⟩
  | fail error context => exact ⟨h.watch.fail error context, h.log⟩
  | start => exact ⟨h.watch.start, h.log⟩
  | stop | abort | sourceEnd result => exact ⟨h.watch.terminate _, h.log⟩
  | observeAbort aborted => exact ⟨h.watch.observeAbort aborted, h.log⟩
  | signalAborted =>
    simp only [NativeWatching.perform, hflags]
    split_ifs
    · exact ⟨h.watch.terminate _, h.log⟩
    · exact h
  | endAfterDelivery => exact ⟨h.watch.endAfterDelivery, h.log⟩
  | microtask =>
    simp only [NativeWatching.perform, hflags]
    split_ifs
    · exact h
    · exact h.deliver h.watch.microtask
  | returned =>
    simp only [NativeWatching.perform, hflags]
    split_ifs
    · exact h
    · exact h.deliver h.watch.returned
  | threw error =>
    simp only [NativeWatching.perform, hflags]
    split_ifs
    · exact h
    · exact ⟨h.watch.threw error, h.log⟩
  | reported =>
    simp only [NativeWatching.perform, hflags]
    cases t.watch.flags.reporting.head? with
    | none => exact h
    | some error => exact ⟨h.watch.reported toError error, h.log⟩

theorem Refines.run (h : Refines s t) (toError : E → E) (acts : List (NativeAct V C E)) :
    Refines (acts.foldl (NativeWatching.perform queue toError) s)
      (acts.foldl (NativeWatching.perform NativeReference.queue toError) t) := by
  induction acts generalizing s t with
  | nil => exact h
  | cons act acts ih => exact ih (h.perform toError act)

/-- The waiting pairs of a queue. -/
def NativeReference.entries (r : NativeReference V C E) : List (V × C) :=
  match r.waiting with
  | .values entries => entries
  | .failed _ _ => []

theorem Holds.slots (h : Holds n r) :
    n.pending = replicate n.head none ++ (NativeReference.entries r).flatMap pair ∧
      n.pending.length < 4 * MAX_PENDING_NATIVE_VALUES := by
  have hwaits := h.waits
  obtain ⟨replace, waiting⟩ := r
  cases waiting with
  | failed error context =>
    obtain ⟨-, -, harray, hhead⟩ := hwaits
    rw [harray, hhead]
    exact ⟨rfl, by simp [MAX_PENDING_NATIVE_VALUES]⟩
  | values entries =>
    obtain ⟨-, -, harray, hhead, hlength⟩ := hwaits
    refine ⟨harray, ?_⟩
    rw [harray]
    simp only [length_append, length_replicate, length_flatMap_pair]
    omega

/-- Under any acts a native watch hands its listener the calls of the queue, each with its own
frame's context, and shows the queue's value. Its array keeps nothing but the waiting pairs, in
fewer than 400 slots. -/
theorem native_watch_refines (replace : Bool) (value : V) (toError : E → E)
    (acts : List (NativeAct V C E)) :
    let s := acts.foldl (NativeWatching.perform queue toError) (new replace value)
    let t := acts.foldl (NativeWatching.perform NativeReference.queue toError)
      (NativeReference.new replace value)
    s.log = t.log.map readCall ∧ s.watch.value = some (.value t.watch.value) ∧
      s.watch.flags = t.watch.flags ∧
      s.watch.queue.pending = replicate s.watch.queue.head none ++
        (NativeReference.entries t.watch.queue).flatMap pair ∧
      s.watch.queue.pending.length < 4 * MAX_PENDING_NATIVE_VALUES := by
  have h := (refines_new (E := E) (C := C) replace value).run toError acts
  exact ⟨h.log, h.watch.value, h.watch.flags, h.watch.pending.slots⟩

end NativeWatch

end KnightCode
