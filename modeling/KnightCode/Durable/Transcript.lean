import KnightCode.Library.System
import KnightCode.Library.Assoc
import Mathlib.Order.WithBot
import Mathlib.Data.List.Sort
import Mathlib.Data.List.Infix

/-!
# The client transcript of one conversation

`ConversationTranscript` merges the windows of a conversation view and the pages a client loads
into one list of items: the entries held, the gaps between them, and a marker while the start of
the transcript is not known. A load is an in-flight call: its loader runs later, and every other
method may run in between.

IDs are integers with holes. `Bound` is what the code compares them with, `⊥` standing for
`Number.NEGATIVE_INFINITY`.
-/

namespace KnightCode.Transcript

abbrev Bound := WithBot ℤ

instance : LinearOrder Bound := @WithBot.linearOrder ℤ Int.instLinearOrder

-- The order below is this one, whichever others are imported.
instance : LE Bound := instLinearOrderBound.toLE
instance : LT Bound := instLinearOrderBound.toLT
instance : Max Bound := instLinearOrderBound.toMax
instance : Min Bound := instLinearOrderBound.toMin
instance : DecidableLE Bound := instLinearOrderBound.toDecidableLE
instance : DecidableLT Bound := instLinearOrderBound.toDecidableLT

/-- `bound + 1`. -/
def Bound.succ (b : Bound) : Bound := b.map (· + 1)

@[simp] theorem Bound.succ_bot : Bound.succ ⊥ = ⊥ := rfl

@[simp] theorem Bound.succ_coe (n : ℤ) : Bound.succ (n : Bound) = ((n + 1 : ℤ) : Bound) := rfl

structure EntryRecord (β : Type*) where
  id : ℤ
  body : β
  deriving DecidableEq

/-- Entries strictly between `after` and `upTo` are missing. -/
structure Gap where
  after : ℤ
  upTo : ℤ
  deriving DecidableEq

inductive TranscriptItem (β : Type*)
  | entry (entry : EntryRecord β)
  | gap (gap : Gap)
  | earlier
  deriving DecidableEq

/-- A window over the transcript; `before` is the entry just before it, absent when the window
starts the transcript. -/
structure ConversationView (β : Type*) where
  entries : List (EntryRecord β)
  before : Option ℤ

/-- One page of a loader; `next` tells whether it came with a cursor. -/
structure Page (β : Type*) where
  items : List (EntryRecord β)
  next : Bool

/-- A shared load: its loader still runs, for the range it was started with, or it has settled and
its promise is about to be dropped. -/
inductive Load (ρ : Type*)
  | running (range : ρ)
  | settled
  deriving DecidableEq

structure ConversationTranscript (β : Type*) where
  entries : List (EntryRecord β)
  gaps : List Gap
  started : Bool
  low : Bound
  tail : Bound
  items : List (TranscriptItem β)
  last : Option (ConversationView β)
  earlier : Option (Load Bound)
  filling : List (Gap × Load Gap)

variable {β : Type*}

def empty : ConversationTranscript β where
  entries := []
  gaps := []
  started := false
  low := ⊥
  tail := ⊥
  items := []
  last := none
  earlier := none
  filling := []

/-- A bound as the ID of a gap's end. No gap is ever cut at `-Infinity`: see `Known.tail_ne_bot`. -/
def idFromNumber (b : Bound) : ℤ := b.unbotD 0

def gapOf (after upTo : Bound) : Gap := ⟨idFromNumber after, idFromNumber upTo⟩

def idAsNumber (e : EntryRecord β) : Bound := (e.id : Bound)

/-- Two ID-ordered lists merged in one pass. -/
def mergeById (left right : List (EntryRecord β)) : List (EntryRecord β) :=
  left.merge right (fun a b => a.id < b.id)

def weave : List Gap → List (EntryRecord β) → List (TranscriptItem β)
  | gaps, [] => gaps.map .gap
  | gaps, e :: es =>
    (gaps.takeWhile (fun g => g.after < e.id)).map .gap ++
      .entry e :: weave (gaps.dropWhile (fun g => g.after < e.id)) es

def build (low : Bound) (gaps : List Gap) (entries : List (EntryRecord β)) :
    List (TranscriptItem β) :=
  (if low = ⊥ then [] else [.earlier]) ++ weave gaps entries

/-- What is left of one gap once (`lo`, `hi`] is known; `none` when the range does not meet it. -/
def subtractGap (entries : List (EntryRecord β)) (lo hi : Bound) (gap : Gap) : Option (List Gap) :=
  if hi ≤ gap.after ∨ (gap.upTo : Bound) ≤ lo.succ then none
  else
    let firstKnown := ((entries.find? (fun e => lo < e.id)).map idAsNumber).getD lo.succ
    some ((if (gap.after : Bound) < lo then [gapOf gap.after (min (gap.upTo : Bound) firstKnown)]
        else []) ++
      (if hi.succ < gap.upTo then [gapOf hi gap.upTo] else []))

def subtract (entries : List (EntryRecord β)) (gaps : List Gap) (lo hi : Bound) :
    List Gap × Bool :=
  if hi ≤ lo then (gaps, false)
  else (gaps.flatMap (fun g => (subtractGap entries lo hi g).getD [g]),
    gaps.any (fun g => (subtractGap entries lo hi g).isSome))

/-- The known range after (`lo`, `hi`] became known: gaps, lower and upper bound, and whether the
items must be built anew; `entries` are those after the call. -/
def extend (t : ConversationTranscript β) (entries : List (EntryRecord β)) (lo hi : Bound)
    (added : List (EntryRecord β)) : List Gap × Bound × Bound × Bool :=
  if !t.started || (t.entries.isEmpty && t.gaps.isEmpty && t.tail ≤ lo) then
    (t.gaps, lo, max t.tail hi, !t.started || lo ≠ t.low)
  else if t.tail < lo then
    let upTo := (added.head?.map idAsNumber).getD lo.succ
    (t.gaps ++ [gapOf t.tail upTo], t.low, hi, true)
  else if hi ≠ ⊥ ∧ hi < t.low then
    let upTo := ((t.entries.find? (fun e => hi < e.id)).map idAsNumber).getD t.low.succ
    (gapOf hi upTo :: t.gaps, lo, t.tail, true)
  else
    let s := subtract entries t.gaps lo hi
    (s.1, min lo t.low, max t.tail hi, s.2 || lo < t.low)

/-- The entries of a range not held yet. -/
def freshOf (t : ConversationTranscript β) (added : List (EntryRecord β)) :
    List (EntryRecord β) :=
  added.filter (fun e => !t.entries.any (fun x => x.id = e.id))

/-- Whether they all come after the entries held, so that the items grow at their end. -/
def appendedOf (t : ConversationTranscript β) (added : List (EntryRecord β)) : Bool :=
  match (freshOf t added).head?, t.entries.getLast? with
  | some e, some x => decide (x.id < e.id)
  | _, _ => true

def entriesOf (t : ConversationTranscript β) (added : List (EntryRecord β)) :
    List (EntryRecord β) :=
  if appendedOf t added then t.entries ++ freshOf t added else mergeById t.entries (freshOf t added)

/-- Record that every entry with an ID in (`lo`, `hi`] is known, `added` being those entries. -/
def cover (t : ConversationTranscript β) (lo hi : Bound) (added : List (EntryRecord β)) :
    ConversationTranscript β :=
  let r := extend t (entriesOf t added) lo hi added
  { t with
    entries := entriesOf t added
    gaps := r.1
    started := true
    low := r.2.1
    tail := r.2.2.1
    items := if r.2.2.2 || !appendedOf t added then build r.2.1 r.1 (entriesOf t added)
      else t.items ++ (freshOf t added).map .entry }

/-- The range a view's window stands for: (`before`, newest]. -/
def ConversationView.lo (view : ConversationView β) : Bound :=
  (view.before.map (fun b => (b : Bound))).getD ⊥

def ConversationView.hi (view : ConversationView β) : Bound :=
  (view.entries.getLast?.map idAsNumber).getD view.lo

def merge (t : ConversationTranscript β) (view : ConversationView β) : ConversationTranscript β :=
  cover { t with last := some view } view.lo view.hi view.entries

/-- A call of `loadEarlier`: `none` when it rejects, otherwise the state it leaves. -/
def loadEarlier (t : ConversationTranscript β) : Option (ConversationTranscript β) :=
  if t.last.isNone then none
  else if t.low = ⊥ then some t
  else match t.earlier with
    | some _ => some t
    | none => some { t with earlier := some (.running t.low) }

/-- The range an earlier page stands for: down to just below its oldest entry, or to the start. -/
def earlierLo (page : Page β) : Bound :=
  match page.next, page.items.getLast? with
  | true, some oldest => ((oldest.id - 1 : ℤ) : Bound)
  | _, _ => ⊥

def earlierLoaded (t : ConversationTranscript β) (low : Bound) (page : Page β) :
    ConversationTranscript β :=
  cover { t with earlier := some .settled } (earlierLo page) low page.items.reverse

/-- The gap a call of `fillGap` resolves to: the same one, or one that overlaps it. -/
def currentGap (t : ConversationTranscript β) (gap : Gap) : Option Gap :=
  (t.gaps.find? (fun g => g = gap)).or
    (t.gaps.find? (fun g => g.after < gap.upTo ∧ gap.after < g.upTo))

def fillGap (t : ConversationTranscript β) (gap : Gap) : Option (ConversationTranscript β) :=
  match currentGap t gap with
  | none => if t.last.isNone then none else some t
  | some current =>
    match Assoc.get current t.filling with
    | some _ => some t
    | none => some { t with filling := Assoc.set current (.running current) t.filling }

/-- The upper end of what a gap page stands for: its newest entry, or all of the gap. -/
def fillHi (current : Gap) (page : Page β) : Bound :=
  match page.next, page.items.getLast? with
  | true, some newest => (newest.id : Bound)
  | _, _ => ((current.upTo - 1 : ℤ) : Bound)

def gapLoaded (t : ConversationTranscript β) (current : Gap) (page : Page β) :
    ConversationTranscript β :=
  cover { t with filling := Assoc.set current .settled t.filling } current.after
    (fillHi current page) page.items

end KnightCode.Transcript
