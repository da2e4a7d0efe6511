import KnightCode.Library.System

/-!
# The lock on a session file

A lock directory beside the session file, refreshed while held so that a crashed holder's lock goes
stale, and an owner token file that a holder checks. Several processes acquire, refresh, take again
and release, one step on the file system at a time; a step of one may fall between any two of
another. The lock library creates the directory in one step, replaces it only when its mtime is
older than the stale limit, and reports a refresh that finds another mtime or no directory.
-/

namespace KnightCode.SessionLock

/-- The process and a fresh number. -/
structure Token where
  process : ℕ
  number : ℕ
deriving DecidableEq

/-- The lock directory, with the token of the acquisition that created it. -/
structure Dir where
  mtime : ℕ
  creator : Token

/-- An acquisition of a process, shared by its handles and counted. `active` says that the lock
library refreshes it, `mtime` is the one it set last; `since` counts the acquisitions completed when
it was given out. -/
structure Held where
  count : ℕ
  exclusive : Bool
  lost : Bool
  token : Token
  stale : ℕ
  mtime : ℕ
  active : Bool
  since : ℕ

/-- What the lock is taken for. `seen` counts the acquisitions completed when a compromised one
found its token in place. -/
inductive Purpose
  | fresh (exclusive : Bool)
  | retake (entry seen : ℕ)

/-- What a process does next on the file system. Only `exit` ends it. -/
inductive Pc
  | idle
  | locking (stale : ℕ) (purpose : Purpose)
  | stamping (token : Token) (mtime stale : ℕ) (purpose : Purpose)
  | givingBack (purpose : Purpose)
  | guarding (entry : ℕ)
  | touching (entry : ℕ)
  | compromised (entry : ℕ)
  | unlocking (entry : ℕ) (exit : Bool)
  | removing (entry : ℕ) (exit : Bool)
  | clearing (entry : ℕ)
  | erasing (entry : ℕ)
  | dead

structure Process where
  held : Option ℕ
  entries : List Held
  pc : Pc

/-- What the processes share. `completed` are the acquisitions completed, in order. -/
structure Disk where
  now : ℕ
  dir : Option Dir
  token : Option Token
  next : ℕ
  completed : List Token

/-- A release of `process` removed the lock directory or the owner token of `victim`, whose
acquisition was complete or not. -/
structure Removal where
  process : ℕ
  victim : Token
  completed : Bool

structure World where
  disk : Disk
  processes : ℕ → Process
  removals : List Removal

namespace Disk

/-- There is no lock directory, or a stale one. -/
def takeable (d : Disk) (stale : ℕ) : Bool :=
  match d.dir with
  | none => true
  | some dir => dir.mtime + stale < d.now

def owns (d : Disk) (token : Token) : Bool :=
  d.token = some token

end Disk

namespace Process

def goTo (pc : Pc) (p : Process) : Process :=
  { p with pc }

def change (entry : ℕ) (f : Held → Held) (p : Process) : Process :=
  { p with entries := p.entries.modify entry f }

/-- Another process holds the file. -/
def lose (entry : ℕ) (p : Process) : Process :=
  { p.change entry (fun e => { e with lost := true }) with
    held := if p.held = some entry then none else p.held }

/-- The lock could not be taken. -/
def fail (purpose : Purpose) (p : Process) : Process :=
  match purpose with
  | .fresh _ => p.goTo .idle
  | .retake entry _ => (p.lose entry).goTo .idle

/-- A refresh was refused: the lock library gives the lock up. -/
def compromise (entry : ℕ) (e : Held) (p : Process) : Process :=
  (p.change entry (fun e => { e with active := false })).goTo
    (if e.count = 0 ∨ e.lost = true then .idle else .compromised entry)

/-- A handle is asked whether it is lost. -/
def check (entry : ℕ) (d : Disk) (p : Process) : Process :=
  match p.entries[entry]? with
  | some e => if e.lost = false ∧ d.owns e.token = false then p.lose entry else p
  | none => p

/-- A handle is acquired: counted on the acquisition held, or on a new one. -/
def acquire (exclusive : Bool) (stale : ℕ) (d : Disk) (p : Process) : Process :=
  let taking := Pc.locking stale (.fresh exclusive)
  match p.held with
  | none => p.goTo taking
  | some entry =>
    match p.entries[entry]? with
    | none => p
    | some e =>
      if d.owns e.token = false then (p.lose entry).goTo taking
      else if exclusive ∨ e.exclusive then p
      else p.change entry (fun e => { e with count := e.count + 1 })

/-- A handle is released; the last one unlocks unless the lock is lost. -/
def release (entry : ℕ) (d : Disk) (p : Process) : Process :=
  match p.entries[entry]? with
  | none => p
  | some e =>
    let counted := p.change entry (fun e => { e with count := e.count - 1 })
    if e.count = 0 then p
    else if 1 < e.count then counted
    else
      let unheld : Process := { counted with held := if p.held = some entry then none else p.held }
      if e.lost then unheld
      else if d.owns e.token then unheld.goTo (.unlocking entry false)
      else unheld.lose entry

/-- The refresh timer: the directory must be there with the mtime set last. -/
def refresh (entry : ℕ) (d : Disk) (p : Process) : Process :=
  match p.entries[entry]? with
  | none => p
  | some e =>
    if e.active = false then p
    else if d.dir.map Dir.mtime = some e.mtime then p.goTo (.guarding entry)
    else p.compromise entry e

/-- The process exits: the lock library removes its lock directory. -/
def exit (entry : ℕ) (p : Process) : Process :=
  match p.entries[entry]? with
  | none => p.goTo .dead
  | some e => if e.active then p.goTo (.unlocking entry true) else p.goTo .dead

end Process

inductive Act
  | acquire (process : ℕ) (exclusive : Bool) (stale : ℕ)
  | release (process entry : ℕ)
  | check (process entry : ℕ)
  | refresh (process entry : ℕ)
  | exit (process entry : ℕ)
  /-- The next step of a process; writing the token may fail. -/
  | advance (process : ℕ) (fails : Bool)
  | crash (process : ℕ)
  | dirDeleted
  | tick (time : ℕ)

namespace World

def set (p : ℕ) (process : Process) (w : World) : World :=
  { w with processes := Function.update w.processes p process }

/-- The lock library's `lockSync`. -/
def lock (p stale : ℕ) (purpose : Purpose) (w : World) : World :=
  let process := w.processes p
  if w.disk.takeable stale then
    let token : Token := ⟨p, w.disk.next⟩
    { w with
      disk := { w.disk with dir := some ⟨w.disk.now, token⟩, next := w.disk.next + 1 } }.set p
      (process.goTo (.stamping token w.disk.now stale purpose))
  else w.set p (process.fail purpose)

/-- The owner token is written: the acquisition is complete. -/
def stamp (p : ℕ) (token : Token) (mtime stale : ℕ) (purpose : Purpose) (w : World) : World :=
  let process := w.processes p
  let completed := w.disk.completed ++ [token]
  let stamped : World :=
    { w with disk := { w.disk with token := some token, completed := completed } }
  match purpose with
  | .fresh exclusive =>
    let e : Held := ⟨1, exclusive, false, token, stale, mtime, true, completed.length⟩
    stamped.set p
      { held := some process.entries.length, entries := process.entries ++ [e], pc := .idle }
  | .retake entry _ =>
    stamped.set p
      ((process.change entry
        (fun e => { e with token := token, mtime := mtime, active := true })).goTo .idle)

/-- The lock directory is removed by a release, or at the exit. -/
def remove (p : ℕ) (w : World) : World :=
  match w.disk.dir with
  | none => w
  | some dir =>
    { w with
      disk := { w.disk with dir := none }
      removals :=
        w.removals ++ [⟨p, dir.creator, decide (dir.creator ∈ w.disk.completed)⟩] }

/-- The owner token is removed by a release. -/
def erase (p : ℕ) (w : World) : World :=
  match w.disk.token with
  | none => w
  | some token =>
    { w with
      disk := { w.disk with token := none }
      removals := w.removals ++ [⟨p, token, decide (token ∈ w.disk.completed)⟩] }

/-- The lock just taken is given back: its token could not be written. -/
def giveBack (p : ℕ) (purpose : Purpose) (w : World) : World :=
  { w with disk := { w.disk with dir := none } }.set p ((w.processes p).fail purpose)

/-- The refresh checks the owner token. -/
def guard (p entry : ℕ) (e : Held) (w : World) : World :=
  if w.disk.owns e.token then w.set p ((w.processes p).goTo (.touching entry))
  else w.set p ((w.processes p).compromise entry e)

/-- The refresh sets the mtime. -/
def touch (p entry : ℕ) (e : Held) (w : World) : World :=
  match w.disk.dir with
  | none => w.set p ((w.processes p).compromise entry e)
  | some dir =>
    { w with disk := { w.disk with dir := some { dir with mtime := w.disk.now } } }.set p
      (((w.processes p).change entry (fun e => { e with mtime := w.disk.now })).goTo .idle)

/-- The lock was given up: with the owner token in place it is taken again. -/
def onCompromised (p entry : ℕ) (e : Held) (w : World) : World :=
  if w.disk.owns e.token then
    w.set p ((w.processes p).goTo (.locking e.stale (.retake entry w.disk.completed.length)))
  else w.set p (((w.processes p).lose entry).goTo .idle)

/-- The guarded removal of the directory checks the owner token. A lock the library gave up cannot
be unlocked. -/
def unlock (p entry : ℕ) (exit : Bool) (e : Held) (w : World) : World :=
  let unlocked := (w.processes p).change entry (fun e => { e with active := false })
  if e.active = false then w.set p ((w.processes p).goTo .idle)
  else if w.disk.owns e.token then w.set p (unlocked.goTo (.removing entry exit))
  else w.set p (unlocked.goTo (if exit then .dead else .clearing entry))

/-- The owner token is checked once more before it is removed. -/
def clear (p entry : ℕ) (e : Held) (w : World) : World :=
  w.set p ((w.processes p).goTo (if w.disk.owns e.token then .erasing entry else .idle))

def withEntry (p entry : ℕ) (f : Held → World → World) (w : World) : World :=
  match (w.processes p).entries[entry]? with
  | none => w
  | some e => f e w

/-- The next step of a process. -/
def next (p : ℕ) (fails : Bool) (w : World) : Pc → World
  | .idle | .dead => w
  | .locking stale purpose => w.lock p stale purpose
  | .stamping token mtime stale purpose =>
    if fails then w.set p ((w.processes p).goTo (.givingBack purpose))
    else w.stamp p token mtime stale purpose
  | .givingBack purpose => w.giveBack p purpose
  | .guarding entry => w.withEntry p entry (guard p entry)
  | .touching entry => w.withEntry p entry (touch p entry)
  | .compromised entry => w.withEntry p entry (onCompromised p entry)
  | .unlocking entry exit => w.withEntry p entry (unlock p entry exit)
  | .removing entry exit => w.withEntry p entry fun _ w =>
    (w.remove p).set p ((w.processes p).goTo (if exit then .dead else .clearing entry))
  | .clearing entry => w.withEntry p entry (clear p entry)
  | .erasing entry => w.withEntry p entry fun _ w =>
    (w.erase p).set p ((w.processes p).goTo .idle)

def start (p : ℕ) (f : Process → Process) (w : World) : World :=
  match (w.processes p).pc with
  | .idle => w.set p (f (w.processes p))
  | _ => w

def perform (w : World) : Act → World
  | .acquire p exclusive stale => w.start p (Process.acquire exclusive stale w.disk)
  | .release p entry => w.start p (Process.release entry w.disk)
  | .check p entry => w.start p (Process.check entry w.disk)
  | .refresh p entry => w.start p (Process.refresh entry w.disk)
  | .exit p entry => w.start p (Process.exit entry)
  | .advance p fails => w.next p fails (w.processes p).pc
  | .crash p => w.set p ((w.processes p).goTo .dead)
  | .dirDeleted => { w with disk := { w.disk with dir := none } }
  | .tick time => { w with disk := { w.disk with now := w.disk.now + time } }

def init : World where
  disk := ⟨0, none, none, 0, []⟩
  processes := fun _ => ⟨none, [], .idle⟩
  removals := []

end World

def system : System World Act where
  init w := w = World.init
  step w act w' := w' = w.perform act

/-! ### What is promised -/

/-- A handle whose lost check says no holds the file alone since it was given out. -/
def World.Alone (w : World) : Prop :=
  ∀ p, ∀ e ∈ (w.processes p).entries, e.lost = false → w.disk.owns e.token = true →
    ∀ token ∈ w.disk.completed.drop e.since, token.process = p

/-- A release removes nothing of another process's completed acquisition. -/
def World.Spares (w : World) : Prop :=
  ∀ removal ∈ w.removals, removal.completed = true → removal.victim.process = removal.process

/-! ### When it is kept -/

/-- The process read the owner token and acts on it. -/
def Pc.Checked : Pc → Prop
  | .removing .. | .erasing _ | .stamping _ _ _ (.retake ..) => True
  | _ => False

/-- The process created the lock directory and has not written its token. -/
def Pc.Stamping : Pc → Prop
  | .stamping .. => True
  | _ => False

/-- An acquisition is completed only while no other process is between a check and what it guards,
nor between the directory and the token of an acquisition that this one replaced; a lock is taken
again only when none was completed since the check. -/
def World.CalmNext (w : World) (p : ℕ) (fails : Bool) : Pc → Prop
  | .stamping token _ _ _ =>
    fails = false → (∀ q, q ≠ p → ¬ (w.processes q).pc.Checked) ∧
      (w.disk.dir.map Dir.creator = some token → ∀ q, q ≠ p → ¬ (w.processes q).pc.Stamping)
  | .locking stale (.retake _ seen) =>
    w.disk.takeable stale = true → w.disk.completed.length = seen
  | _ => True

def World.Calm (w : World) : Act → Prop
  | .advance p fails => w.CalmNext p fails (w.processes p).pc
  | _ => True

end KnightCode.SessionLock
