import KnightCode.Delta.Op

/-!
# Trackers

A tracker holds a value and its revision. A change opens a context with a draft; preparing it
releases the draft and leaves a candidate, and adopting the candidate makes it the value. Values are
compared by reference. What a draft holds, what one write does to it and which operations it emits
are parameters: the guards around them are what decides which candidates can be adopted.
-/

namespace KnightCode.Delta

inductive TrackerError
  /-- `TypeError("Cannot use a settled overlay")` -/
  | settledOverlay
  /-- `TypeError("Prepared overlays are read-only")` -/
  | readOnly
  /-- `Error("Change has already been settled")` -/
  | settledChange
  /-- `Error("Prepared change belongs to a different tracker")` -/
  | foreign
  /-- `Error("Prepared change has already been used")` -/
  | used
  /-- `Error("Prepared change has been aborted")` -/
  | aborted
  /-- `Error("Prepared change is stale")` -/
  | stale
  /-- `Error("Prepared change is not ready")` -/
  | notReady
  | thrown (message : String)

/-- Overlays over a value: drafts, their writes, and what is prepared from them. -/
structure OverlayEngine (Value Overlay Write : Type) where
  createNode : Value → Overlay
  nodeBase : Overlay → Value
  write : Write → Overlay → Overlay × Except TrackerError Unit
  emitOperations : Overlay → Except TrackerError (List Op)
  /-- `cloneNode` or `materializeOperations` -/
  materialize : Value → Overlay → List Op → Except TrackerError Value
  equalTrustedJson : Value → Value → Bool
  toJson : Value → Json

inductive Status
  | opened
  | prepared
  | consumed
  | aborted
  | stale
  deriving DecidableEq

/-- The overlay and the base are released together. -/
structure OverlayContext (Value Overlay : Type) where
  owner : ℕ
  baseRevision : ℕ
  status : Status
  root : Option Overlay
  replacement : Bool
  baseValue : Option Value

structure PreparedImpl (Value : Type) where
  context : ℕ
  value : Value
  base : Value
  ops : List Op

/-- The status cell of a prepared change is that of its context. -/
structure ChangeImpl where
  context : Option ℕ
  preparedStatus : Option ℕ
  settled : Bool

/-- The most recent open context, and the open ones before it. -/
structure TrackerImpl (Value : Type) where
  latest : Option ℕ
  competitors : List ℕ
  value : Value
  revision : ℕ

/-- Trackers and what they handed out; a handle is a position. -/
structure Tracking (Value Overlay : Type) where
  trackers : List (TrackerImpl Value)
  contexts : List (OverlayContext Value Overlay)
  changes : List ChangeImpl
  prepareds : List (PreparedImpl Value)

variable {Value Overlay Write : Type}

def OverlayContext.isSettled (context : OverlayContext Value Overlay) : Bool :=
  context.root.isNone || context.status = .consumed || context.status = .aborted ||
    context.status = .stale

def assertReadable (context : OverlayContext Value Overlay) : Except TrackerError Unit :=
  if context.isSettled then .error .settledOverlay else .ok ()

def assertWritable (context : OverlayContext Value Overlay) : Except TrackerError Unit := do
  assertReadable context
  if context.status ≠ .opened then .error .readOnly

def TrackerImpl.releaseContext (id : ℕ) (tracker : TrackerImpl Value) : TrackerImpl Value :=
  if tracker.latest = some id then { tracker with latest := none }
  else { tracker with competitors := tracker.competitors.erase id }

namespace Tracking

def setContext (id : ℕ)
    (f : OverlayContext Value Overlay → OverlayContext Value Overlay)
    (w : Tracking Value Overlay) : Tracking Value Overlay :=
  { w with contexts := w.contexts.modify id f }

def setStatus (id : ℕ) (status : Status) (w : Tracking Value Overlay) : Tracking Value Overlay :=
  w.setContext id fun context => { context with status := status }

def releaseContext (id : ℕ) (w : Tracking Value Overlay) : Tracking Value Overlay :=
  match w.contexts[id]? with
  | none => w
  | some context =>
    { w with trackers := w.trackers.modify context.owner (TrackerImpl.releaseContext id) }

/-- `clearContext`, or `releaseOverlayReferences` for a large overlay. -/
def clearContext (id : ℕ) (w : Tracking Value Overlay) : Tracking Value Overlay :=
  (w.releaseContext id).setContext id fun context =>
    { context with root := none, baseValue := none }

def abortContext (id : ℕ) (w : Tracking Value Overlay) : Tracking Value Overlay :=
  match w.contexts[id]? with
  | none => w
  | some context =>
    match context.status with
    | .aborted | .consumed | .stale => w
    | _ => (w.setStatus id .aborted).clearContext id

def track (initial : Value) (w : Tracking Value Overlay) : Tracking Value Overlay :=
  { w with trackers := w.trackers ++ [⟨none, [], initial, 0⟩] }

section Engine

variable (engine : OverlayEngine Value Overlay Write)

def createContext (owner baseRevision : ℕ) (status : Status) (root : Value) (replacement : Bool)
    (base : Value) : OverlayContext Value Overlay :=
  ⟨owner, baseRevision, status, some (engine.createNode root), replacement, some base⟩

def beginChange (owner : ℕ) (w : Tracking Value Overlay) : Tracking Value Overlay :=
  match w.trackers[owner]? with
  | none => w
  | some tracker =>
    let id := w.contexts.length
    let opened : TrackerImpl Value :=
      { tracker with
        latest := some id
        competitors := tracker.competitors ++ tracker.latest.toList }
    { w with
      trackers := w.trackers.set owner opened
      contexts := w.contexts ++
        [createContext engine owner tracker.revision .opened tracker.value false tracker.value]
      changes := w.changes ++ [⟨some id, none, false⟩] }

def draftWrite (id : ℕ) (write : Write) (w : Tracking Value Overlay) :
    Tracking Value Overlay × Except TrackerError Unit :=
  match w.contexts[id]? with
  | none => (w, .error .settledOverlay)
  | some context =>
    match assertWritable context, context.root with
    | .ok _, some overlay =>
      let (next, result) := engine.write write overlay
      (w.setContext id fun context => { context with root := some next }, result)
    | .error error, _ => (w, .error error)
    | _, none => (w, .error .settledOverlay)

/-- The rest of a write that ran code of its caller, a comparator or a getter of the supplied value,
after the guard: it is not guarded again, and finds what that code left. -/
def resumeWrite (id : ℕ) (write : Write) (w : Tracking Value Overlay) :
    Tracking Value Overlay × Except TrackerError Unit :=
  match w.contexts[id]? with
  | none => (w, .error .settledOverlay)
  | some context =>
    match context.root with
    | some overlay =>
      let (next, result) := engine.write write overlay
      (w.setContext id fun context => { context with root := some next }, result)
    | none => (w, .error .settledOverlay)

def replacementBase (context : OverlayContext Value Overlay) (w : Tracking Value Overlay) :
    Option Value :=
  match w.trackers[context.owner]? with
  | some tracker => if context.baseRevision = tracker.revision then some tracker.value else none
  | none => none

def operations (context : OverlayContext Value Overlay) (overlay : Overlay)
    (w : Tracking Value Overlay) : Except TrackerError (List Op) :=
  if context.replacement then
    let root := engine.nodeBase overlay
    let replacementNoop :=
      match w.replacementBase context with
      | some base => engine.equalTrustedJson base root
      | none => false
    .ok (if replacementNoop then [] else [.replace (engine.toJson root)])
  else engine.emitOperations overlay

def materializePrepared (id : ℕ) (context : OverlayContext Value Overlay)
    (w : Tracking Value Overlay) : Except TrackerError (PreparedImpl Value) :=
  match context.root, context.baseValue with
  | some overlay, some base => do
    let operations ← operations engine context overlay w
    let value ←
      match operations with
      | [] => pure base
      | _ => engine.materialize base overlay operations
    return ⟨id, value, base, operations⟩
  | _, _ => .error .settledOverlay

/-- Prepare a context whose status is `prepared` already. -/
def prepareContext (id : ℕ) (w : Tracking Value Overlay) :
    Tracking Value Overlay × Except TrackerError Unit :=
  match w.contexts[id]? with
  | none => (w, .error .settledOverlay)
  | some context =>
    match materializePrepared engine id context w with
    | .ok prepared =>
      ({ w.clearContext id with prepareds := w.prepareds ++ [prepared] }, .ok ())
    | .error error => ((w.setStatus id .aborted).clearContext id, .error error)

def prepare (id : ℕ) (w : Tracking Value Overlay) :
    Tracking Value Overlay × Except TrackerError Unit :=
  match w.changes[id]? with
  | none => (w, .error .settledChange)
  | some change =>
    match change.settled, change.context with
    | false, some contextId =>
      match w.contexts[contextId]? with
      | none => (w, .error .settledChange)
      | some context =>
        match assertWritable context with
        | .error error => (w, .error error)
        | .ok _ =>
          let (next, result) := prepareContext engine contextId (w.setStatus contextId .prepared)
          let preparedStatus :=
            match result with
            | .ok _ => some contextId
            | .error _ => none
          ({ next with changes := next.changes.set id ⟨none, preparedStatus, true⟩ }, result)
    | _, _ => (w, .error .settledChange)

def prepareReplace (owner : ℕ) (value : Value) (w : Tracking Value Overlay) :
    Tracking Value Overlay × Except TrackerError Unit :=
  match w.trackers[owner]? with
  | none => (w, .error .foreign)
  | some tracker =>
    let context :=
      createContext engine owner tracker.revision .prepared value true tracker.value
    prepareContext engine w.contexts.length { w with contexts := w.contexts ++ [context] }

end Engine

/-- The status cell of a prepared change. -/
def abortStatus (id : ℕ) (w : Tracking Value Overlay) : Tracking Value Overlay :=
  match w.contexts[id]? with
  | none => w
  | some context => if context.status = .prepared then w.setStatus id .aborted else w

/-- `abort()` of a change. -/
def abortChange (id : ℕ) (w : Tracking Value Overlay) : Tracking Value Overlay :=
  match w.changes[id]? with
  | none => w
  | some change =>
    if change.settled then
      let aborted := change.preparedStatus.elim w fun contextId => w.abortStatus contextId
      { aborted with changes := aborted.changes.set id { change with preparedStatus := none } }
    else
      let aborted := change.context.elim w fun contextId => w.abortContext contextId
      { aborted with
        changes := aborted.changes.set id { change with context := none, settled := true } }

/-- `abort()` of a preparation. -/
def abortPrepared (id : ℕ) (w : Tracking Value Overlay) : Tracking Value Overlay :=
  match w.prepareds[id]? with
  | none => w
  | some prepared => w.abortContext prepared.context

def staleCompetitor (winner : ℕ) (w : Tracking Value Overlay) (id : ℕ) : Tracking Value Overlay :=
  if id = winner then w
  else
    (w.setContext id fun (context : OverlayContext Value Overlay) =>
      if context.status = .opened ∨ context.status = .prepared then
        { context with status := .stale }
      else context).clearContext id

/-- `#invalidate` -/
def invalidate (owner winner : ℕ) (w : Tracking Value Overlay) : Tracking Value Overlay :=
  match w.trackers[owner]? with
  | none => w
  | some tracker =>
    let forgotten : TrackerImpl Value := { tracker with latest := none, competitors := [] }
    (tracker.latest.toList ++ tracker.competitors).foldl (staleCompetitor winner)
      { w with trackers := w.trackers.set owner forgotten }

variable [DecidableEq Value]

def adopt (owner id : ℕ) (w : Tracking Value Overlay) :
    Tracking Value Overlay × Except TrackerError Unit :=
  match w.trackers[owner]?, w.prepareds[id]? with
  | some tracker, some prepared =>
    match w.contexts[prepared.context]? with
    | none => (w, .error .foreign)
    | some context =>
      if context.owner ≠ owner then (w, .error .foreign)
      else if context.status = .consumed then (w, .error .used)
      else if context.status = .aborted then (w, .error .aborted)
      else if context.status = .stale then (w, .error .stale)
      else if context.status ≠ .prepared then (w, .error .notReady)
      else if context.baseRevision ≠ tracker.revision then
        ((w.setStatus prepared.context .stale).clearContext prepared.context, .error .stale)
      else if tracker.value ≠ prepared.base then
        (w.setStatus prepared.context .stale, .error .stale)
      else
        let adopted : TrackerImpl Value :=
          { tracker with value := prepared.value, revision := tracker.revision + 1 }
        let w : Tracking Value Overlay := { w with trackers := w.trackers.set owner adopted }
        ((w.setStatus prepared.context .consumed).invalidate owner prepared.context, .ok ())
  | _, _ => (w, .error .foreign)

end Tracking

/-- What a caller does to trackers, changes, drafts and preparations. -/
inductive TrackerAction (Value Write : Type)
  | track (initial : Value)
  | beginChange (owner : ℕ)
  | draftWrite (context : ℕ) (write : Write)
  | resumeWrite (context : ℕ) (write : Write)
  | prepare (change : ℕ)
  | prepareReplace (owner : ℕ) (value : Value)
  | abortChange (change : ℕ)
  | abortPrepared (prepared : ℕ)
  | adopt (owner prepared : ℕ)

namespace Tracking

variable [DecidableEq Value] (engine : OverlayEngine Value Overlay Write)

def perform (action : TrackerAction Value Write) (w : Tracking Value Overlay) :
    Tracking Value Overlay × Except TrackerError Unit :=
  match action with
  | .track initial => (w.track initial, .ok ())
  | .beginChange owner => (w.beginChange engine owner, .ok ())
  | .draftWrite context write => w.draftWrite engine context write
  | .resumeWrite context write => w.resumeWrite engine context write
  | .prepare change => w.prepare engine change
  | .prepareReplace owner value => w.prepareReplace engine owner value
  | .abortChange change => (w.abortChange change, .ok ())
  | .abortPrepared prepared => (w.abortPrepared prepared, .ok ())
  | .adopt owner prepared => w.adopt owner prepared

def empty : Tracking Value Overlay := ⟨[], [], [], []⟩

def run (w : Tracking Value Overlay) (actions : List (TrackerAction Value Write)) :
    Tracking Value Overlay :=
  actions.foldl (fun w action => (w.perform engine action).1) w

/-- `baseRevision` of a preparation -/
def baseRevision (prepared : PreparedImpl Value) (w : Tracking Value Overlay) : Option ℕ :=
  (w.contexts[prepared.context]?).map OverlayContext.baseRevision

def adoptedBy (owner : ℕ) (w : Tracking Value Overlay) :
    TrackerAction Value Write → List (Option ℕ × PreparedImpl Value)
  | .adopt owner' id =>
    if owner' = owner ∧ (w.adopt owner' id).2.toBool then
      (w.prepareds[id]?).toList.map fun prepared => (w.baseRevision prepared, prepared)
    else []
  | _ => []

/-- The preparations adopted on a tracker, in order. -/
def adoptions (owner : ℕ) (w : Tracking Value Overlay) :
    List (TrackerAction Value Write) → List (Option ℕ × PreparedImpl Value)
  | [] => []
  | action :: actions =>
    w.adoptedBy owner action ++ adoptions owner (w.perform engine action).1 actions

end Tracking

end KnightCode.Delta
