import KnightCode.Library.System
import Mathlib

/-!
# Scheduling flushes

A commit arms a timer, one that arrives during a flush leaves when it wants the next one, and a
flush that ends arms the next; a failed one is retried. `close` disarms and flushes once more, after
the flush underway. A run is any order of these with the timers that fire and the flushes that end;
what the clock reads is free. `#running` is set only when the call of `flush` has come back, so what
is called within that call finds it as it was before.
-/

namespace KnightCode.Sync

open List Option Bool

structure FlushOptions where
  intervalMs : ℕ := 5000
  urgentMs : ℕ := 200
  retryMs : ℕ := 1000
  maxRetryMs : ℕ := 60000

/-- The fields of a `FlushScheduler`. `disarm` is the timer `#disarm` disarms, `running` the call of
`#run` whose promise `#running` is. -/
structure FlushScheduler where
  due : Option ℤ
  disarm : Option ℕ
  running : Option ℕ
  pendingDue : Option ℤ
  failures : ℕ
  closed : Bool

/-- The scheduler, its armed timers with their delays, and the calls of `#run` whose flush has not
ended. Of a call of `close` that has not flushed yet, the call of `#run` it awaits. -/
structure Scheduling where
  scheduler : FlushScheduler
  timers : List (ℕ × ℤ)
  nextTimer : ℕ
  runs : List ℕ
  nextRun : ℕ
  /-- The call of `#run` that is in its call of `flush`. -/
  starting : Option ℕ
  /-- Calls of `#run` that ended with an error. -/
  rejected : List ℕ
  closing : List (Option ℕ)
  closeFlights : ℕ
  /-- Some notified commit has had no flush start after it. -/
  uncovered : Bool

inductive FlushOutcome
  | succeeded
  | failed
  /-- The flush failed, and `onError` threw. -/
  | unreported
  deriving DecidableEq

inductive FlushEvent
  | notify (urgent : Bool) (now : ℤ)
  /-- A timer fires, up to within the call of `flush`. -/
  | fire (timer : ℕ)
  /-- The call of `flush` gives its promise. -/
  | returned
  /-- The call of `flush` throws. -/
  | threw (reported : Bool) (now : ℤ)
  | settle (run : ℕ) (outcome : FlushOutcome) (now : ℤ)
  | close
  | closeFlush (awaited : Option ℕ)
  | closeReject (run : ℕ)
  | closeSettle

namespace Scheduling

variable (options : FlushOptions) (w : Scheduling)

def init : Scheduling where
  scheduler := ⟨none, none, none, none, 0, false⟩
  timers := []
  nextTimer := 0
  runs := []
  nextRun := 0
  starting := none
  rejected := []
  closing := []
  closeFlights := 0
  uncovered := false

/-- `this.#disarm?.()`. -/
def disarmed : List (ℕ × ℤ) :=
  w.timers.filter fun timer => some timer.1 ≠ w.scheduler.disarm

/-- `#arm`. -/
def arm (due now : ℤ) : Scheduling :=
  if w.scheduler.due.any (· ≤ due) then w
  else { w with
    scheduler := { w.scheduler with due := some due, disarm := some w.nextTimer }
    timers := w.disarmed ++ [(w.nextTimer, max 0 (due - now))]
    nextTimer := w.nextTimer + 1 }

def notify (urgent : Bool) (now : ℤ) : Scheduling :=
  if w.scheduler.closed then w
  else
    let w := { w with uncovered := true }
    let due := now + if urgent then options.urgentMs else options.intervalMs
    if w.scheduler.running ≠ none then { w with
      scheduler := { w.scheduler with
        pendingDue := some (w.scheduler.pendingDue.elim due fun pending => min pending due) } }
    else w.arm due now

/-- When a failed flush is retried. -/
def retry (now : ℤ) : ℤ :=
  now + min (options.retryMs * 2 ^ w.scheduler.failures) options.maxRetryMs

/-- What `#run` does behind its flush, which failed or not. -/
def after (failed : Bool) (now : ℤ) : Scheduling :=
  let retry := if failed then some (w.retry options now) else none
  let failures := if failed then w.scheduler.failures + 1 else 0
  let w := { w with
    scheduler := { w.scheduler with running := none, failures := failures } }
  if w.scheduler.closed then w
  else
    let pending := w.scheduler.pendingDue
    let w := { w with scheduler := { w.scheduler with pendingDue := none } }
    match retry.or pending with
    | some due => w.arm due now
    | none => w

/-- The end of a call of `#run`. An error of `onError` leaves it behind `finally`. -/
def ended (run : ℕ) (outcome : FlushOutcome) (now : ℤ) : Scheduling :=
  let w := { w with runs := w.runs.filter (· ≠ run) }
  match outcome with
  | .succeeded => w.after options false now
  | .failed => w.after options true now
  | .unreported => { w with
    scheduler := { w.scheduler with running := none }
    rejected := w.rejected ++ [run] }

/-- `#run`, called by a timer, up to its call of `flush`. -/
def run (timer : ℕ) : Scheduling := { w with
  scheduler := { w.scheduler with disarm := none, due := none }
  timers := w.timers.filter fun each => each.1 ≠ timer
  runs := w.runs ++ [w.nextRun]
  nextRun := w.nextRun + 1
  starting := some w.nextRun
  uncovered := false }

/-- `#run` goes on behind its call of `flush`, to the assignment of `#running`. -/
def assign (run : Option ℕ) : Scheduling :=
  { w with scheduler := { w.scheduler with running := run } }

def close : Scheduling := { w with
  scheduler := { w.scheduler with closed := true, disarm := none, due := none }
  timers := w.disarmed
  closing := w.closing ++ [w.scheduler.running] }

/-- Whether an event can come. Within a call of `flush` only the scheduler's own functions are
called. -/
def Enabled : FlushEvent → Prop
  | .notify _ _ => True
  | .fire timer => w.starting = none ∧ timer ∈ w.timers.map (·.1)
  | .returned => w.starting ≠ none
  | .threw _ _ => w.starting ≠ none
  | .settle run _ _ => w.starting = none ∧ run ∈ w.runs
  | .close => True
  | .closeFlush awaited => w.starting = none ∧ awaited ∈ w.closing ∧
    ∀ run, awaited = some run → run ∉ w.runs ∧ run ∉ w.rejected
  | .closeReject run => w.starting = none ∧ some run ∈ w.closing ∧ run ∈ w.rejected
  | .closeSettle => w.starting = none ∧ 0 < w.closeFlights

def perform : FlushEvent → Scheduling
  | .notify urgent now => w.notify options urgent now
  | .fire timer => w.run timer
  | .returned => ({ w with starting := none } : Scheduling).assign w.starting
  | .threw reported now =>
    w.starting.elim w fun run =>
      (({ w with starting := none } : Scheduling).ended options run
        (if reported then .failed else .unreported) now).assign (some run)
  | .settle run outcome now => w.ended options run outcome now
  | .close => w.close
  | .closeFlush awaited => { w with
    closing := w.closing.erase awaited
    closeFlights := w.closeFlights + 1
    uncovered := false }
  | .closeReject run => { w with closing := w.closing.erase (some run) }
  | .closeSettle => { w with closeFlights := w.closeFlights - 1 }

end Scheduling

def flushSystem (options : FlushOptions) : System Scheduling FlushEvent where
  init := fun w => w = Scheduling.init
  step := fun w event w' => w.Enabled event ∧ w' = w.perform options event

namespace Scheduling

/-- A commit no flush covers yet has a timer armed, or a flush running that arms one however it
ends, unless `onError` throws. -/
def Awaited (options : FlushOptions) (w : Scheduling) : Prop :=
  w.uncovered = true → w.scheduler.closed = false →
    w.timers ≠ [] ∨ ∃ run ∈ w.runs, ∀ outcome now, outcome ≠ .unreported →
      (w.ended options run outcome now).timers ≠ []

def Single (w : Scheduling) : Prop := w.runs.length + w.closeFlights ≤ 1

/-- After `close` no timer is armed, and no flush starts but those of `close`. -/
def Quiet (options : FlushOptions) (w : Scheduling) : Prop :=
  w.scheduler.closed = true → w.timers = [] ∧ ∀ event, w.Enabled event →
    (w.perform options event).scheduler.closed = true ∧
    ∀ run ∈ (w.perform options event).runs, run ∈ w.runs

/-- `close` is not called while an earlier call has its flush to make or underway, nor within the
call of `flush`; `notify` neither, unless `#running` is that of a flush that threw; and `onError`
does not throw for a flush that threw or during which a commit came. -/
def Spared (w : Scheduling) : FlushEvent → Prop
  | .notify _ _ => w.starting = none ∨ w.scheduler.running ≠ none
  | .threw reported _ => reported = true
  | .settle _ outcome _ =>
    outcome = .unreported → w.uncovered = false ∨ w.scheduler.closed = true
  | .close => w.starting = none ∧ w.closing = [] ∧ w.closeFlights = 0
  | _ => True

/-- What every run keeps. -/
structure Inv (w : Scheduling) : Prop where
  timers : w.timers.map (·.1) = w.scheduler.disarm.toList
  armed : w.scheduler.due.isSome = w.scheduler.disarm.isSome
  alone : w.runs.length ≤ 1
  started : w.starting.toList ⊆ w.runs
  underway : w.runs ≠ [] → w.scheduler.disarm = none
  running : w.starting = none → ∀ run ∈ w.runs, w.scheduler.running = some run
  settled : w.scheduler.running ≠ none → w.runs = [] →
    w.scheduler.closed = true ∨ w.scheduler.disarm ≠ none
  closed : w.scheduler.closed = true → w.scheduler.disarm = none ∧ w.starting = none
  uncovered : w.uncovered = true → w.scheduler.closed = true ∨ w.scheduler.disarm ≠ none ∨
    (w.runs ≠ [] ∧ w.scheduler.pendingDue ≠ none)
  calls : w.closing.length + w.closeFlights ≤ 1
  open' : w.scheduler.closed = false → w.closing = [] ∧ w.closeFlights = 0
  awaits : ∀ awaited ∈ w.closing, ∀ run ∈ w.runs, awaited = some run
  flushing : 0 < w.closeFlights → w.runs = []

variable {options : FlushOptions} {w : Scheduling}

theorem init_inv : Scheduling.init.Inv where
  timers := rfl
  armed := rfl
  alone := Nat.zero_le _
  started := fun _ h => (by cases h)
  underway := fun h => absurd rfl h
  running := fun _ _ h => (by cases h)
  settled := fun h => absurd rfl h
  closed := fun h => (by cases h)
  uncovered := fun h => (by cases h)
  calls := Nat.zero_le _
  open' := fun _ => ⟨rfl, rfl⟩
  awaits := fun _ h => (by cases h)
  flushing := fun _ => rfl

/-! ### Arming -/

theorem disarmed_eq (h : w.timers.map (·.1) = w.scheduler.disarm.toList) : w.disarmed = [] := by
  refine filter_eq_nil_iff.mpr fun timer htimer hne => ?_
  have hmem : timer.1 ∈ w.scheduler.disarm.toList := h ▸ mem_map_of_mem htimer
  exact of_decide_eq_true hne (mem_toList.mp hmem).symm

/-- What `#arm` does to the scheduler: a timer is armed, and nothing else changes. -/
structure Armed (w next : Scheduling) : Prop where
  timers : next.timers.map (·.1) = next.scheduler.disarm.toList
  due : next.scheduler.due.isSome = next.scheduler.disarm.isSome
  disarm : next.scheduler.disarm ≠ none
  fields : next.scheduler.running = w.scheduler.running ∧
    next.scheduler.closed = w.scheduler.closed
  rest : next.runs = w.runs ∧ next.starting = w.starting ∧ next.closing = w.closing ∧
    next.closeFlights = w.closeFlights ∧ next.uncovered = w.uncovered

theorem arm_armed (htimers : w.timers.map (·.1) = w.scheduler.disarm.toList)
    (hdue : w.scheduler.due.isSome = w.scheduler.disarm.isSome) (due now : ℤ) :
    Armed w (w.arm due now) := by
  unfold arm
  split_ifs with hearly
  · refine ⟨htimers, hdue, fun hnone => ?_, ⟨rfl, rfl⟩, rfl, rfl, rfl, rfl, rfl⟩
    rw [hnone] at hdue
    rw [not_isSome_iff_eq_none.mp (eq_false_iff.mp hdue)] at hearly
    cases hearly
  · refine ⟨?_, rfl, some_ne_none _, ⟨rfl, rfl⟩, rfl, rfl, rfl, rfl, rfl⟩
    rw [disarmed_eq htimers]
    rfl

theorem Armed.inv {next : Scheduling} (h : Armed w next) (hruns : w.runs = [])
    (hstarting : w.starting = none) (hopen : w.scheduler.closed = false)
    (hclosing : w.closing = [] ∧ w.closeFlights = 0) : next.Inv := by
  obtain ⟨-, hclosed⟩ := h.fields
  obtain ⟨hsame, hstart, hcalls, hcloses, -⟩ := h.rest
  rw [hopen] at hclosed
  rw [hruns] at hsame
  rw [hstarting] at hstart
  rw [hclosing.1] at hcalls
  rw [hclosing.2] at hcloses
  constructor
  · exact h.timers
  · exact h.due
  · rw [hsame]
    exact Nat.zero_le 1
  · rw [hstart]
    exact nil_subset _
  · exact fun hne => absurd hsame hne
  · intro _ run hrun
    rw [hsame] at hrun
    cases hrun
  · exact fun _ _ => .inr h.disarm
  · intro hyes
    rw [hclosed] at hyes
    cases hyes
  · exact fun _ => .inr (.inl h.disarm)
  · rw [hcalls, hcloses]
    exact Nat.zero_le 1
  · exact fun _ => ⟨hcalls, hcloses⟩
  · intro awaited hawaited
    rw [hcalls] at hawaited
    cases hawaited
  · exact fun _ => hsame

/-! ### Commits -/

theorem Inv.runs_nil (h : w.Inv) (hstarting : w.starting = none)
    (hrunning : w.scheduler.running = none) : w.runs = [] := by
  refine eq_nil_iff_forall_not_mem.mpr fun run hrun => ?_
  rw [h.running hstarting run hrun] at hrunning
  cases hrunning

theorem Inv.notify (h : w.Inv) (urgent : Bool) (now : ℤ)
    (hspared : w.starting = none ∨ w.scheduler.running ≠ none) :
    (w.notify options urgent now).Inv := by
  unfold Scheduling.notify
  by_cases hclosed : w.scheduler.closed = true
  · rw [if_pos hclosed]
    exact h
  rw [if_neg hclosed]
  have hopen : w.scheduler.closed = false := eq_false_iff.mpr hclosed
  dsimp only
  by_cases hrunning : w.scheduler.running = none
  · rw [if_neg (not_not.mpr hrunning)]
    have hstarting : w.starting = none := hspared.resolve_right (not_not.mpr hrunning)
    have harmed := arm_armed (w := { w with uncovered := true }) h.timers h.armed
      (now + (if urgent = true then options.urgentMs else options.intervalMs : ℕ)) now
    exact harmed.inv (h.runs_nil hstarting hrunning) hstarting hopen (h.open' hopen)
  · rw [if_pos hrunning]
    refine { h with uncovered := fun _ => ?_ }
    by_cases hruns : w.runs = []
    · -- The flush that threw as it was called armed its retry.
      obtain hyes | hne := h.settled hrunning hruns
      · exact absurd hyes hclosed
      · exact .inr (.inl hne)
    · exact .inr (.inr ⟨hruns, some_ne_none _⟩)

/-! ### The end of a flush -/

/-- A flush has just ended: nothing is armed, and what it leaves uncovered has its due time. -/
structure Ended (w : Scheduling) : Prop where
  timers : w.timers = []
  disarm : w.scheduler.disarm = none
  due : w.scheduler.due = none
  runs : w.runs = []
  starting : w.starting = none
  uncovered : w.uncovered = true → w.scheduler.closed = true ∨ w.scheduler.pendingDue ≠ none
  calls : w.closing.length + w.closeFlights ≤ 1
  open' : w.scheduler.closed = false → w.closing = [] ∧ w.closeFlights = 0

/-- Ended, with nothing armed for what comes next. -/
theorem Ended.inv {next : Scheduling} (h : Ended w)
    (hsame : next.timers = w.timers ∧ next.scheduler.disarm = w.scheduler.disarm ∧
      next.scheduler.due = w.scheduler.due ∧ next.runs = w.runs ∧ next.starting = w.starting ∧
      next.closing = w.closing ∧ next.closeFlights = w.closeFlights ∧
      next.scheduler.closed = w.scheduler.closed) (hrunning : next.scheduler.running = none)
    (hcover : next.uncovered = true → next.scheduler.closed = true) : next.Inv := by
  obtain ⟨htimers, hdisarm, hdue, hruns, hstart, hclosing, hcloses, hclosed⟩ := hsame
  rw [h.timers] at htimers
  rw [h.disarm] at hdisarm
  rw [h.due] at hdue
  rw [h.runs] at hruns
  rw [h.starting] at hstart
  constructor
  · rw [htimers, hdisarm]
    rfl
  · rw [hdue, hdisarm]
    rfl
  · rw [hruns]
    exact Nat.zero_le 1
  · rw [hstart]
    exact nil_subset _
  · exact fun _ => hdisarm
  · intro _ run hrun
    rw [hruns] at hrun
    cases hrun
  · exact fun hne => absurd hrunning hne
  · exact fun _ => ⟨hdisarm, hstart⟩
  · exact fun hyes => .inl (hcover hyes)
  · rw [hclosing, hcloses]
    exact h.calls
  · rw [hclosing, hcloses, hclosed]
    exact h.open'
  · intro _ _ run hrun
    rw [hruns] at hrun
    cases hrun
  · exact fun _ => hruns

variable (options) in
theorem Ended.after (h : Ended w) (failed : Bool) (now : ℤ) :
    (w.after options failed now).Inv ∧
    (w.after options failed now).scheduler.closed = w.scheduler.closed ∧
    (w.after options failed now).uncovered = w.uncovered ∧
    (w.after options failed now).runs = [] ∧ (w.after options failed now).starting = none ∧
    (failed = true → w.scheduler.closed = false →
      (w.after options failed now).scheduler.disarm ≠ none) := by
  have htimers : w.timers.map (·.1) = w.scheduler.disarm.toList := by
    rw [h.timers, h.disarm]
    rfl
  have hdue : w.scheduler.due.isSome = w.scheduler.disarm.isSome := by
    rw [h.due, h.disarm]
    rfl
  unfold Scheduling.after
  dsimp only
  by_cases hclosed : w.scheduler.closed = true
  · rw [if_pos hclosed]
    refine ⟨h.inv ⟨rfl, rfl, rfl, rfl, rfl, rfl, rfl, rfl⟩ rfl fun _ => hclosed, rfl, rfl, h.runs,
      h.starting, fun _ hopen => ?_⟩
    rw [hclosed] at hopen
    cases hopen
  rw [if_neg hclosed]
  have hopen : w.scheduler.closed = false := eq_false_iff.mpr hclosed
  cases hnext : ((if failed = true then some (w.retry options now) else none).or
      w.scheduler.pendingDue) with
  | some due =>
    dsimp only
    have harmed := arm_armed (w := { w with scheduler := { w.scheduler with
      running := none, failures := if failed = true then w.scheduler.failures + 1 else 0,
      pendingDue := none } }) htimers hdue due now
    obtain ⟨hruns, hstart, -, -, hcover⟩ := harmed.rest
    exact ⟨harmed.inv h.runs h.starting hopen (h.open' hopen), harmed.fields.2, hcover,
      hruns.trans h.runs, hstart.trans h.starting, fun _ _ => harmed.disarm⟩
  | none =>
    obtain ⟨hretry, hpending⟩ := or_eq_none_iff.mp hnext
    refine ⟨h.inv ⟨rfl, rfl, rfl, rfl, rfl, rfl, rfl, rfl⟩ rfl fun hcover => ?_, rfl, rfl, h.runs,
      h.starting, fun hfailed => ?_⟩
    · exact (h.uncovered hcover).resolve_right (not_not.mpr hpending)
    · rw [if_pos hfailed] at hretry
      cases hretry

variable {run : ℕ}

theorem Inv.eq_of_mem (h : w.Inv) (hrun : run ∈ w.runs) : w.runs = [run] := by
  obtain ⟨single, hsingle⟩ :=
    length_eq_one_iff.mp (le_antisymm h.alone (length_pos_of_mem hrun))
  rw [hsingle] at hrun ⊢
  rw [mem_singleton.mp hrun]

theorem Inv.ended (h : w.Inv) (hrun : run ∈ w.runs) :
    Ended { w with starting := none, runs := w.runs.filter (· ≠ run) } := by
  have hruns := h.eq_of_mem hrun
  have hdisarm := h.underway (ne_nil_of_mem hrun)
  have htimers := h.timers
  have harmed := h.armed
  rw [hdisarm] at htimers harmed
  refine ⟨map_eq_nil_iff.mp htimers, hdisarm, ?_, ?_, rfl, fun hcover => ?_, h.calls, h.open'⟩
  · exact not_isSome_iff_eq_none.mp (eq_false_iff.mp harmed)
  · show w.runs.filter _ = []
    rw [hruns]
    exact filter_eq_nil_iff.mpr fun each heach => by simpa using mem_singleton.mp heach
  · obtain hyes | hne | ⟨-, hne⟩ := h.uncovered hcover
    · exact .inl hyes
    · exact absurd hdisarm hne
    · exact .inr hne

variable (options) in
theorem Inv.settle (h : w.Inv) (hrun : run ∈ w.runs) (hstarting : w.starting = none)
    (outcome : FlushOutcome) (now : ℤ)
    (hspared : outcome = .unreported → w.uncovered = false ∨ w.scheduler.closed = true) :
    (w.ended options run outcome now).Inv ∧
      (w.ended options run outcome now).scheduler.closed = w.scheduler.closed ∧
      (w.ended options run outcome now).runs = [] := by
  have hended := h.ended hrun
  have hsame : ({ w with starting := none, runs := w.runs.filter (· ≠ run) } : Scheduling) =
      { w with runs := w.runs.filter (· ≠ run) } := by rw [← hstarting]
  rw [hsame] at hended
  unfold Scheduling.ended
  cases outcome with
  | succeeded =>
    obtain ⟨hinv, hclosed, -, hruns, -⟩ := hended.after options false now
    exact ⟨hinv, hclosed, hruns⟩
  | failed =>
    obtain ⟨hinv, hclosed, -, hruns, -⟩ := hended.after options true now
    exact ⟨hinv, hclosed, hruns⟩
  | unreported =>
    refine ⟨hended.inv ⟨rfl, rfl, rfl, rfl, rfl, rfl, rfl, rfl⟩ rfl fun hcover => ?_, rfl,
      hended.runs⟩
    obtain hnone | hclosed := hspared rfl
    · exact absurd (hnone.symm.trans hcover) (by decide)
    · exact hclosed

/-! ### Timers -/

theorem Inv.fire (h : w.Inv) {timer : ℕ} (htimer : timer ∈ w.timers.map (·.1)) :
    (w.run timer).Inv := by
  have hdisarm : w.scheduler.disarm = some timer := by
    rw [h.timers] at htimer
    exact mem_toList.mp htimer
  have hopen : w.scheduler.closed = false := by
    refine eq_false_iff.mpr fun hclosed => ?_
    rw [(h.closed hclosed).1] at hdisarm
    cases hdisarm
  have hruns : w.runs = [] := by
    by_contra hne
    rw [h.underway hne] at hdisarm
    cases hdisarm
  obtain ⟨hclosing, hcloses⟩ := h.open' hopen
  have hone : (w.run timer).runs = [w.nextRun] := by
    show w.runs ++ [w.nextRun] = _
    rw [hruns, nil_append]
  constructor
  · have hrest : (w.timers.filter fun each => each.1 ≠ timer) = [] := by
      refine filter_eq_nil_iff.mpr fun each heach hne => ?_
      have hmem : each.1 ∈ w.scheduler.disarm.toList := h.timers ▸ mem_map_of_mem heach
      rw [hdisarm, mem_toList] at hmem
      exact of_decide_eq_true hne (Option.some.inj hmem).symm
    exact congrArg (map (·.1)) hrest
  · rfl
  · rw [hone]
    exact le_refl 1
  · rw [hone]
    exact Subset.refl _
  · exact fun _ => rfl
  · exact fun hstarting => (by cases hstarting)
  · intro _ hnil
    rw [hone] at hnil
    cases hnil
  · intro hclosed
    exact absurd (hopen.symm.trans hclosed) (by decide)
  · exact fun hcover => (by cases hcover)
  · exact h.calls
  · exact h.open'
  · intro awaited hawaited
    change awaited ∈ w.closing at hawaited
    rw [hclosing] at hawaited
    cases hawaited
  · intro hpos
    change 0 < w.closeFlights at hpos
    rw [hcloses] at hpos
    cases hpos

theorem Inv.returned (h : w.Inv) (hstarting : w.starting ≠ none) :
    (w.perform options .returned).Inv := by
  obtain ⟨run, hrun⟩ := ne_none_iff_exists'.mp hstarting
  have hmem : run ∈ w.runs := h.started (by rw [hrun]; exact mem_singleton.mpr rfl)
  have hruns := h.eq_of_mem hmem
  refine { h with
    started := nil_subset _, running := fun _ each heach => ?_, settled := fun _ hnil => ?_,
    closed := fun hclosed => ⟨(h.closed hclosed).1, rfl⟩ }
  · change each ∈ w.runs at heach
    rw [hruns, mem_singleton] at heach
    rw [heach]
    exact hrun
  · exact absurd hnil (ne_nil_of_mem hmem)

theorem Inv.threw (h : w.Inv) (hstarting : w.starting ≠ none) (now : ℤ) :
    (w.perform options (.threw true now)).Inv := by
  obtain ⟨run, hrun⟩ := ne_none_iff_exists'.mp hstarting
  have hmem : run ∈ w.runs := h.started (by rw [hrun]; exact mem_singleton.mpr rfl)
  have hopen : w.scheduler.closed = false := by
    refine eq_false_iff.mpr fun hclosed => ?_
    exact hstarting (h.closed hclosed).2
  obtain ⟨hinv, -, -, hruns, hstart, harmed⟩ :=
    (h.ended hmem).after options true now
  have hdisarm := harmed rfl hopen
  have hperform : w.perform options (.threw true now) =
      (({ w with starting := none, runs := w.runs.filter (· ≠ run) } : Scheduling).after options
        true now).assign (some run) := by
    rw [perform, hrun]
    rfl
  rw [hperform]
  refine { hinv with
    running := fun _ each heach => ?_, settled := fun _ _ => .inr hdisarm,
    uncovered := fun _ => .inr (.inl hdisarm) }
  change each ∈ (Scheduling.after _ _ _ _).runs at heach
  rw [hruns] at heach
  cases heach

/-! ### Closing -/

theorem Inv.close (h : w.Inv) (hstarting : w.starting = none) (hclosing : w.closing = [])
    (hcloses : w.closeFlights = 0) : w.close.Inv := by
  have hone : w.close.closing = [w.scheduler.running] := by
    show w.closing ++ _ = _
    rw [hclosing, nil_append]
  refine ⟨?_, rfl, h.alone, h.started, fun _ => rfl, h.running, fun _ _ => .inl rfl,
    fun _ => ⟨rfl, hstarting⟩, fun _ => .inl rfl, ?_, fun hopen => (by cases hopen), ?_,
    fun hpos => ?_⟩
  · exact congrArg (map (·.1)) (disarmed_eq h.timers)
  · rw [hone]
    show 1 + w.closeFlights ≤ 1
    rw [hcloses]
  · intro awaited hawaited run hrun
    rw [hone, mem_singleton] at hawaited
    rw [hawaited]
    exact h.running hstarting run hrun
  · change 0 < w.closeFlights at hpos
    rw [hcloses] at hpos
    cases hpos

theorem Inv.closed_of_closing (h : w.Inv) {awaited : Option ℕ} (hmem : awaited ∈ w.closing) :
    w.scheduler.closed = true := by
  by_contra hopen
  rw [(h.open' (eq_false_iff.mpr hopen)).1] at hmem
  cases hmem

theorem Inv.closeFlush (h : w.Inv) {awaited : Option ℕ} (hmem : awaited ∈ w.closing)
    (hafter : ∀ run, awaited = some run → run ∉ w.runs ∧ run ∉ w.rejected) :
    (w.perform options (.closeFlush awaited)).Inv := by
  have hcalls := h.calls
  have hpos := length_pos_of_mem hmem
  have hruns : w.runs = [] := by
    refine eq_nil_iff_forall_not_mem.mpr fun run hrun => ?_
    exact (hafter run (h.awaits awaited hmem run hrun)).1 hrun
  have hclosed := h.closed_of_closing hmem
  refine { h with
    uncovered := fun hcover => (by cases hcover), calls := ?_, open' := fun hopen => ?_,
    awaits := fun each heach => h.awaits each (mem_of_mem_erase heach), flushing := fun _ => hruns }
  · show (w.closing.erase awaited).length + (w.closeFlights + 1) ≤ 1
    rw [length_erase_of_mem hmem]
    omega
  · exact absurd (hclosed.symm.trans hopen) (by decide)

theorem Inv.closeReject (h : w.Inv) (hmem : some run ∈ w.closing) :
    (w.perform options (.closeReject run)).Inv := by
  have hcalls := h.calls
  have hclosed := h.closed_of_closing hmem
  refine { h with
    calls := ?_, open' := fun hopen => ?_,
    awaits := fun each heach => h.awaits each (mem_of_mem_erase heach) }
  · show (w.closing.erase (some run)).length + w.closeFlights ≤ 1
    rw [length_erase_of_mem hmem]
    omega
  · exact absurd (hclosed.symm.trans hopen) (by decide)

theorem Inv.closeSettle (h : w.Inv) : (w.perform options .closeSettle).Inv := by
  have hcalls := h.calls
  refine { h with calls := ?_, open' := fun hopen => ?_, flushing := fun hpos => h.flushing ?_ }
  · show w.closing.length + (w.closeFlights - 1) ≤ 1
    omega
  · obtain ⟨hclosing, hcloses⟩ := h.open' hopen
    refine ⟨hclosing, ?_⟩
    show w.closeFlights - 1 = 0
    omega
  · change 0 < w.closeFlights - 1 at hpos
    omega

theorem Inv.perform (h : w.Inv) {event : FlushEvent} (henabled : w.Enabled event)
    (hspared : w.Spared event) : (w.perform options event).Inv := by
  cases event with
  | notify urgent now => exact h.notify urgent now hspared
  | fire timer => exact h.fire henabled.2
  | returned => exact h.returned henabled
  | threw reported now =>
    obtain rfl : reported = true := hspared
    exact h.threw henabled now
  | settle run outcome now => exact (h.settle options henabled.2 henabled.1 outcome now hspared).1
  | close => exact h.close hspared.1 hspared.2.1 hspared.2.2
  | closeFlush awaited => exact h.closeFlush henabled.2.1 henabled.2.2
  | closeReject run => exact h.closeReject henabled.2.1
  | closeSettle => exact h.closeSettle

/-! ### What holds in every state -/

theorem Inv.awaited (h : w.Inv) : w.Awaited options := by
  intro hcover hopen
  obtain hyes | hne | ⟨hruns, hpending⟩ := h.uncovered hcover
  · exact absurd (hopen.symm.trans hyes) (by decide)
  · refine .inl fun hnil => hne ?_
    have htimers := h.timers
    rw [hnil] at htimers
    exact toList_eq_nil_iff.mp htimers.symm
  · obtain ⟨run, hrun⟩ := exists_mem_of_ne_nil _ hruns
    refine .inr ⟨run, hrun, fun outcome now hreported => ?_⟩
    -- `ended` reads nothing of `starting`, and pending commits arm whatever the outcome.
    have hended := h.ended hrun
    have harms : ∀ failed, (({ w with runs := w.runs.filter (· ≠ run) } : Scheduling).after options
        failed now).timers ≠ [] := by
      intro failed hnil
      unfold Scheduling.after at hnil
      dsimp only at hnil
      rw [if_neg (by rw [hopen]; decide)] at hnil
      cases hnext : ((if failed = true then some (({ w with runs := w.runs.filter (· ≠ run) } :
          Scheduling).retry options now) else none).or w.scheduler.pendingDue) with
      | none => exact hpending (or_eq_none_iff.mp hnext).2
      | some due =>
        rw [hnext] at hnil
        dsimp only [arm] at hnil
        rw [if_neg (by rw [show w.scheduler.due = none from hended.due]; exact false_ne_true)]
          at hnil
        exact append_ne_nil_of_right_ne_nil _ (cons_ne_nil _ _) hnil
    cases outcome with
    | succeeded => exact harms false
    | failed => exact harms true
    | unreported => exact absurd rfl hreported

theorem Inv.single (h : w.Inv) : w.Single := by
  have halone := h.alone
  have hcalls := h.calls
  unfold Single
  by_cases hpos : 0 < w.closeFlights
  · rw [h.flushing hpos, length_nil]
    omega
  · omega

theorem Inv.quiet (h : w.Inv) : w.Quiet options := by
  intro hclosed
  obtain ⟨hdisarm, hstarting⟩ := h.closed hclosed
  have htimers := h.timers
  rw [hdisarm] at htimers
  refine ⟨map_eq_nil_iff.mp htimers, fun event henabled => ?_⟩
  cases event with
  | notify urgent now =>
    have hsame : w.perform options (.notify urgent now) = w := if_pos hclosed
    rw [hsame]
    exact ⟨hclosed, fun _ hrun => hrun⟩
  | fire timer =>
    obtain ⟨-, hmem⟩ := henabled
    rw [htimers] at hmem
    cases hmem
  | returned | threw reported now => exact absurd hstarting henabled
  | settle run outcome now =>
    obtain ⟨-, hsame, hruns⟩ :=
      h.settle options henabled.2 henabled.1 outcome now fun _ => .inr hclosed
    refine ⟨hsame.trans hclosed, fun each heach => ?_⟩
    change each ∈ (Scheduling.ended _ _ _ _ _).runs at heach
    rw [hruns] at heach
    cases heach
  | close => exact ⟨rfl, fun _ hrun => hrun⟩
  | closeFlush awaited | closeReject run | closeSettle => exact ⟨hclosed, fun _ hrun => hrun⟩

end Scheduling

open Scheduling

/-- Along every run in which `close` is not called again before its flush has ended, nothing calls
the scheduler within a call of `flush` that it makes, and `onError` does not throw where a commit
or a retry would be lost, a commit no flush covers has a timer or a flush that arms one, one flush
runs at a time, and after `close` no timer is armed and no flush starts but its own. -/
theorem flush_scheduling (options : FlushOptions) {w : Scheduling}
    (h : (flushSystem options).ReachableBy Spared w) :
    w.Awaited options ∧ w.Single ∧ w.Quiet options := by
  have hinv : w.Inv := by
    refine h.invariant (fun s hs => ?_) fun s event t hs hspared hstep => ?_
    · rw [hs]
      exact init_inv
    · rw [hstep.2]
      exact hs.perform hstep.1 hspared
  exact ⟨hinv.awaited, hinv.single, hinv.quiet⟩

/-- A commit during a flush that fails, a retry that throws, and a commit within the next one. -/
def retriedRun : List FlushEvent :=
  [.notify false 0, .fire 0, .returned, .notify true 5100, .settle 0 .failed 5300, .fire 1,
    .threw true 6300, .fire 2, .notify false 8300]

/-- Then `close`, while that flush is underway. -/
def closedRun : List FlushEvent :=
  [.returned, .close, .settle 2 .failed 8400, .closeFlush (some 2)]

theorem flush_scheduling_retry :
    Awaited {} (retriedRun.foldl (perform {}) init) ∧
    Single (closedRun.foldl (perform {}) (retriedRun.foldl (perform {}) init)) ∧
    Quiet {} (closedRun.foldl (perform {}) (retriedRun.foldl (perform {}) init)) := by
  have hretried : (flushSystem {}).Along Spared (perform {}) init retriedRun :=
    ⟨⟨trivial, rfl⟩, .inl rfl, ⟨⟨rfl, by decide⟩, rfl⟩, trivial, ⟨some_ne_none _, rfl⟩, trivial,
      ⟨trivial, rfl⟩, .inl rfl, ⟨⟨rfl, by decide⟩, rfl⟩, fun h => (by cases h),
      ⟨⟨rfl, by decide⟩, rfl⟩, trivial, ⟨some_ne_none _, rfl⟩, rfl, ⟨⟨rfl, by decide⟩, rfl⟩,
      trivial, ⟨trivial, rfl⟩, .inr (some_ne_none _), trivial⟩
  have hclosed : (flushSystem {}).Along Spared (perform {})
      (retriedRun.foldl (perform {}) init) closedRun :=
    ⟨⟨some_ne_none _, rfl⟩, trivial, ⟨trivial, rfl⟩, ⟨rfl, rfl, rfl⟩, ⟨⟨rfl, by decide⟩, rfl⟩,
      fun h => (by cases h), ⟨⟨rfl, by decide, by rintro _ ⟨⟩; decide⟩, rfl⟩, trivial, trivial⟩
  exact ⟨(flush_scheduling {} ⟨_, rfl, hretried.steps⟩).1,
    (flush_scheduling {} ⟨_, rfl, hretried.steps.trans hclosed.steps⟩).2⟩

/-- Two calls of `close` with no flush underway run their flushes at the same time. -/
theorem flush_scheduling_closes :
    ¬ ∀ options w, (flushSystem options).Reachable w →
      w.Awaited options ∧ w.Single ∧ w.Quiet options := by
  intro h
  have hrun : (flushSystem {}).Along (fun _ _ => True) (perform {}) init
      [.close, .close, .closeFlush none, .closeFlush none] :=
    ⟨⟨trivial, rfl⟩, trivial, ⟨trivial, rfl⟩, trivial,
      ⟨⟨rfl, mem_cons_self, fun _ h => (by cases h)⟩, rfl⟩, trivial,
      ⟨⟨rfl, mem_cons_self, fun _ h => (by cases h)⟩, rfl⟩, trivial, trivial⟩
  have hsingle := (h {} _ ⟨_, rfl, hrun.steps⟩).2.1
  exact absurd hsingle (show ¬ 2 ≤ 1 by decide)

end KnightCode.Sync
