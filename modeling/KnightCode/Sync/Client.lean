import KnightCode.Sync.Remote

/-!
# Uploads, pulls and folds

Each call is its place in the code between two awaits. `resume` takes it over the next await: one
remote call, one write of the sync state, one transaction of the copy's store, or one read.
-/

namespace KnightCode.Sync

variable {D W : Type}

/-! ### A copy -/

/-- The store of a copy with its outbox, whose rows are the commits after `floor`. -/
structure Store (W : Type) where
  commits : List W
  floor : ℕ
  floor_le : floor ≤ commits.length

namespace Store

def lastSeq (store : Store W) : ℕ :=
  store.commits.length

def empty : Store W :=
  ⟨[], 0, le_rfl⟩

def commit (writes : W) (store : Store W) : Store W :=
  ⟨store.commits ++ [writes], store.floor, store.floor_le.trans (by simp)⟩

/-- The commits in one transaction, each following the one before. -/
def applyBatch (store : Store W) : List (OutboxCommit W) → Option (Store W)
  | [] => some store
  | commit :: rest =>
    if commit.seq = store.lastSeq + 1 then (store.commit commit.writes).applyBatch rest else none

def trim (throughSeq : ℕ) (store : Store W) : Store W :=
  if h : store.floor < throughSeq ∧ throughSeq ≤ store.lastSeq then
    ⟨store.commits, throughSeq, h.2⟩
  else store

/-- The store an archive gives, its outbox starting after it. -/
def importStore (body : List (OutboxCommit W)) : Store W :=
  ⟨body.map (·.writes), body.length, by simp⟩

end Store

structure SyncState where
  syncedHead : Option ℕ
  pulling : Option ℕ

/-- The last sequence a copy shares with the remote, counting commits an interrupted pull
applied. -/
def sharedHead (state : Option SyncState) (head : ℕ) : ℕ :=
  match state with
  | none => LOG_START
  | some state =>
    match state.pulling with
    | some pulling => if head ≤ pulling then head else state.syncedHead.getD LOG_START
    | none => state.syncedHead.getD LOG_START

structure Copy (W : Type) where
  store : Option (Store W)
  state : Option SyncState

namespace Copy

def commits (copy : Copy W) : List W :=
  (copy.store.map (·.commits)).getD []

/-- `storeHead` of the copy's store. -/
def head (copy : Copy W) : ℕ :=
  copy.commits.length

def floor (copy : Copy W) : ℕ :=
  (copy.store.map (·.floor)).getD 0

def trim (throughSeq : ℕ) (copy : Copy W) : Copy W :=
  { copy with store := copy.store.map (Store.trim throughSeq) }

/-- `openStore` on the copy's backend. -/
def openStore (copy : Copy W) : Copy W :=
  { copy with store := some (copy.store.getD .empty) }

/-- `at()` of a pull that has the store open, or not yet. -/
def pullHead (copy : Copy W) (opened : Bool) : ℕ :=
  if opened then copy.head else LOG_START

end Copy

/-! ### Upload -/

inductive UploadResult
  | uploaded (head : ℕ)
  | idle (head : ℕ)
  | diverged (seq : ℕ)
  | behind (head syncedHead : ℕ)
  | staleEpoch (seq : ℕ)
  | outboxUnavailable

/-- The head up to which an upload says that the remote has the copy's commits. -/
def UploadResult.head : UploadResult → Option ℕ
  | .uploaded head | .idle head => some head
  | _ => none

inductive Upload (D : Type)
  | reading
  | starting (state : Option SyncState)
  | exporting (uploaded : Option ℕ)
  | ranging (synced : ℕ) (uploaded : Option ℕ)
  | putting (after upTo : ℕ) (archive : Bool) (uploaded : Option ℕ)
  | answered (after upTo : ℕ) (result : PutBatchResult D) (uploaded : Option ℕ)
  /-- Before `state.set` and `outbox.trim`. -/
  | recording (synced : ℕ) (uploaded : Option ℕ)
  | trimming (synced : ℕ) (uploaded : Option ℕ)

/-- What the code leaves to sizes and to the remote: how many commits a batch takes beyond its
first, and whether the remote refuses the epoch. -/
structure UploadChoice where
  more : ℕ
  stale : Bool

namespace Upload

/-- The top of the loop, where the head is read again. -/
def loop (synced : ℕ) (uploaded : Option ℕ) (copy : Copy W) : Upload D ⊕ UploadResult :=
  if copy.head < synced then .inr (.behind copy.head synced)
  else if synced = LOG_START ∧ 0 < copy.floor then .inl (.exporting uploaded)
  else .inl (.ranging synced uploaded)

def answer [DecidableEq D] (device : D) (after upTo : ℕ) (uploaded : Option ℕ) :
    PutBatchResult D → Upload D ⊕ UploadResult
  | .staleEpoch => .inr (.staleEpoch after)
  | .notHead _ => .inr (.diverged after)
  | .slotExists held owner =>
    if owner = device then .inl (.recording held uploaded) else .inr (.diverged after)
  | .created => .inl (.recording upTo (some upTo))

def resume [DecidableEq D] (device : D) (choice : UploadChoice) (remote : Remote D W)
    (copy : Copy W) : Upload D → Remote D W × Copy W × (Upload D ⊕ UploadResult)
  | .reading => (remote, copy, .inl (.starting copy.state))
  | .starting state => (remote, copy, loop (sharedHead state copy.head) none copy)
  | .exporting uploaded => (remote, copy, .inl (.putting LOG_START copy.head true uploaded))
  | .ranging synced uploaded =>
    if synced < copy.floor then (remote, copy, .inr .outboxUnavailable)
    else if copy.head ≤ synced then
      (remote, copy, .inr (match uploaded with
        | none => .idle synced
        | some head => .uploaded head))
    else
      (remote, copy, .inl (.putting synced (min (synced + 1 + choice.more) copy.head) false
        uploaded))
  | .putting after upTo archive uploaded =>
    if choice.stale then (remote, copy, .inl (.answered after upTo .staleEpoch uploaded))
    else
      let body := outboxRows after ((copy.commits.take upTo).drop after)
      let (result, remote) := remote.putBatch after upTo device archive body
      (remote, copy, .inl (.answered after upTo result uploaded))
  | .answered after upTo result uploaded =>
    (remote, copy, answer device after upTo uploaded result)
  | .recording synced uploaded =>
    (remote, { copy with state := some ⟨some synced, none⟩ }, .inl (.trimming synced uploaded))
  | .trimming synced uploaded =>
    let copy := copy.trim (min synced copy.head)
    (remote, copy, loop synced uploaded copy)

end Upload

/-! ### Pull -/

structure PullBody where
  upTo : ℕ
  archive : Bool
  snapshot : Bool
  key : ℕ

def RemoteHistory.bodies (history : RemoteHistory D) : List PullBody :=
  (history.snapshot.map fun seq => PullBody.mk seq true true seq).toList ++
    history.batches.map fun batch => ⟨batch.upTo, batch.archive, false, batch.after⟩

def PullBody.read (body : PullBody) (remote : Remote D W) : Option (List (OutboxCommit W)) :=
  if body.snapshot then remote.getSnapshot body.key else remote.getBatch body.key

inductive PullResult
  | resolved (head : ℕ)
  | unsyncedCommits
  | historyUnavailable
  /-- `importStore` or `applyBatch` refused. -/
  | refused

def PullResult.head : PullResult → Option ℕ
  | .resolved head => some head
  | _ => none

/-- `opened` tells whether the pull has the store open; a pull into an empty backend opens it on
its way. -/
inductive Pull (D W : Type)
  | entered (opened : Bool)
  | reading (opened : Bool) (listing : RemoteListing D)
  | planning (opened : Bool) (listing : RemoteListing D) (state : Option SyncState)
  | fetching (opened : Bool) (listing : RemoteListing D) (body : PullBody) (rest : List PullBody)
  | marking (opened : Bool) (listing : RemoteListing D) (body : PullBody)
      (lines : List (OutboxCommit W)) (rest : List PullBody) (state : SyncState)
  | importing (listing : RemoteListing D) (lines : List (OutboxCommit W)) (rest : List PullBody)
  | opening (listing : RemoteListing D) (lines : List (OutboxCommit W)) (rest : List PullBody)
  /-- `applyBody`: before the next line, and before `applyBatch`. -/
  | decoding (listing : RemoteListing D) (lines chunk : List (OutboxCommit W))
      (rest : List PullBody)
  | applying (listing : RemoteListing D) (lines chunk : List (OutboxCommit W))
      (rest : List PullBody)
  | clearing (listing : RemoteListing D) (rest : List PullBody) (state : SyncState)
  /-- Before `openStore` where no body came. -/
  | finishing (listing : RemoteListing D)
  /-- Before the last `state.set` and `outbox.trim`. -/
  | recording (head : ℕ)
  | trimming (head : ℕ)

namespace Pull

/-- After the last body: the listing's head must be reached. -/
def close (listing : RemoteListing D) (copy : Copy W) : Pull D W ⊕ PullResult :=
  if copy.head < remoteHead listing then .inr .historyUnavailable else .inl (.recording copy.head)

def loop (opened : Bool) (listing : RemoteListing D) (copy : Copy W) (bodies : List PullBody) :
    Pull D W ⊕ PullResult :=
  match bodies.dropWhile fun body => body.upTo ≤ copy.pullHead opened with
  | body :: rest => .inl (.fetching opened listing body rest)
  | [] => if opened then close listing copy else .inl (.finishing listing)

/-- The size of a line, and where `applyBody` ends a chunk. -/
def full (size : OutboxCommit W → ℕ) (limit : ℕ) (chunk : List (OutboxCommit W)) : Prop :=
  limit ≤ chunk.foldl (fun bytes line => bytes + size line) 0

instance (size : OutboxCommit W → ℕ) (limit : ℕ) (chunk : List (OutboxCommit W)) :
    Decidable (full size limit chunk) :=
  inferInstanceAs (Decidable (_ ≤ _))

/-- Sync state once the body is applied. -/
def cleared (listing : RemoteListing D) (rest : List PullBody) (copy : Copy W) : Pull D W :=
  .clearing listing rest ⟨some copy.head, none⟩

def resume (size : OutboxCommit W → ℕ) (limit : ℕ) (remote : Remote D W) (copy : Copy W) :
    Pull D W → Copy W × (Pull D W ⊕ PullResult)
  | .entered opened => (copy, .inl (.reading opened remote.list))
  | .reading opened listing => (copy, .inl (.planning opened listing copy.state))
  | .planning opened listing state =>
    let head := copy.pullHead opened
    if sharedHead state head < head then (copy, .inr .unsyncedCommits)
    else (copy, loop opened listing copy (remoteHistory listing (some head)).bodies)
  | .fetching opened listing body rest =>
    match body.read remote with
    | none => (copy, .inr .historyUnavailable)
    | some lines =>
      let state := ⟨some (copy.pullHead opened), some body.upTo⟩
      (copy, .inl (.marking opened listing body lines rest state))
  | .marking opened listing body lines rest state =>
    let copy := { copy with state := some state }
    if body.archive then
      -- An archive restores a whole store: only into an empty backend.
      if opened then (copy, .inr .historyUnavailable)
      else (copy, .inl (.importing listing lines rest))
    else if opened then (copy, .inl (.decoding listing lines [] rest))
    else (copy, .inl (.opening listing lines rest))
  | .importing listing lines rest =>
    match copy.store with
    | some _ => (copy, .inr .refused)
    | none =>
      let copy := { copy with store := some (.importStore lines) }
      (copy, .inl (cleared listing rest copy))
  | .opening listing lines rest => (copy.openStore, .inl (.decoding listing lines [] rest))
  | .decoding listing (line :: lines) chunk rest =>
    if line.seq ≤ copy.head then (copy, .inl (.decoding listing lines chunk rest))
    else if full size limit (chunk ++ [line]) then
      (copy, .inl (.applying listing lines (chunk ++ [line]) rest))
    else (copy, .inl (.decoding listing lines (chunk ++ [line]) rest))
  | .decoding listing [] [] rest => (copy, .inl (cleared listing rest copy))
  | .decoding listing [] chunk rest => (copy, .inl (.applying listing [] chunk rest))
  | .applying listing lines chunk rest =>
    match copy.store.bind fun store => store.applyBatch chunk with
    | none => (copy, .inr .refused)
    | some store => ({ copy with store := some store }, .inl (.decoding listing lines [] rest))
  | .clearing listing rest state =>
    let copy := { copy with state := some state }
    (copy, loop true listing copy rest)
  | .finishing listing => (copy.openStore, close listing copy.openStore)
  | .recording head => ({ copy with state := some ⟨some head, none⟩ }, .inl (.trimming head))
  | .trimming head => (copy.trim head, .inr (.resolved head))

end Pull

/-! ### Fold -/

/-- `foldSession`: a pull into a scratch copy, its export as a snapshot, and what that makes
superfluous. -/
inductive Fold (D W : Type)
  | entered
  | restoring (listing : RemoteListing D) (scratch : Copy W) (pull : Pull D W)
  | exporting (listing : RemoteListing D) (scratch : Copy W)
  | snapshotting (listing : RemoteListing D) (upTo : ℕ) (body : List (OutboxCommit W))
  | folding (afters snapshots : List ℕ)

namespace Fold

def scratch : Copy W :=
  ⟨none, none⟩

/-- `none` once the fold ended. -/
def resume (size : OutboxCommit W → ℕ) (limit : ℕ) (remote : Remote D W) :
    Fold D W → Remote D W × Option (Fold D W)
  | .entered =>
    let history := remoteHistory remote.list none
    if history.bodies.length < 2 then (remote, none)
    else (remote, some (.restoring remote.list scratch (.entered false)))
  | .restoring listing scratch pull =>
    match pull.resume size limit remote scratch with
    | (scratch, .inl pull) => (remote, some (.restoring listing scratch pull))
    | (scratch, .inr (.resolved _)) => (remote, some (.exporting listing scratch))
    | (_, .inr _) => (remote, none)
  | .exporting listing scratch =>
    (remote, some (.snapshotting listing scratch.head (outboxRows 0 scratch.commits)))
  | .snapshotting listing upTo body =>
    let covered := (remoteHistory listing none).batches.filter fun batch => batch.upTo ≤ upTo
    (remote.putSnapshot upTo body,
      some (.folding (covered.map (·.after)) (listing.snapshots.filter fun seq => seq < upTo)))
  | .folding (after :: afters) snapshots =>
    (remote.foldBatch after, some (.folding afters snapshots))
  | .folding [] (seq :: snapshots) => (remote.deleteSnapshot seq, some (.folding [] snapshots))
  | .folding [] [] => (remote, none)

end Fold

end KnightCode.Sync
