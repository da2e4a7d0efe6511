import KnightCode.Library.System
import KnightCode.Sync.Client

/-!
# A session and its devices

Any number of devices, each with a copy of the session, its sync state and the calls it has in
flight, and folds on the remote's side. A call takes one await at a time and may stop at any of
them; a remote call whose response is lost is a call that stops after it.
-/

namespace KnightCode.Sync

variable {D W : Type}

structure Peer (D W : Type) where
  copy : Copy W
  uploads : ℕ → Option (Upload D)
  pulls : ℕ → Option (Pull D W)
  /-- A pull stopped and none resolved since. -/
  stopped : Bool
  /-- The heads that uploads (`uploaded`, `idle`) and pulls reported. -/
  reported : List ℕ

namespace Peer

def new (store : Option (Store W)) : Peer D W where
  copy := ⟨store, none⟩
  uploads := fun _ => none
  pulls := fun _ => none
  stopped := false
  reported := []

def uploadAt (call : ℕ) (copy : Copy W) (next : Upload D ⊕ UploadResult) (peer : Peer D W) :
    Peer D W :=
  { peer with
    copy := copy
    uploads := Function.update peer.uploads call next.getLeft?
    reported := (next.getRight?.bind UploadResult.head).toList ++ peer.reported }

def pullAt (call : ℕ) (copy : Copy W) (next : Pull D W ⊕ PullResult) (peer : Peer D W) :
    Peer D W :=
  let resolved := next.getRight?.bind PullResult.head
  { peer with
    copy := copy
    pulls := Function.update peer.pulls call next.getLeft?
    stopped := peer.stopped && resolved.isNone
    reported := resolved.toList ++ peer.reported }

end Peer

@[ext]
structure Session (D W : Type) where
  remote : Remote D W
  peers : D → Peer D W
  folds : ℕ → Option (Fold D W)

inductive Act (D W : Type)
  | commit (device : D) (writes : W)
  | openStore (device : D)
  | upload (device : D) (call : ℕ)
  | uploadNext (device : D) (call : ℕ) (choice : UploadChoice)
  | uploadStop (device : D) (call : ℕ)
  | pull (device : D) (call : ℕ)
  | pullNext (device : D) (call : ℕ)
  | pullStop (device : D) (call : ℕ)
  | fold (call : ℕ)
  | foldNext (call : ℕ)
  | foldStop (call : ℕ)

namespace Session

variable [DecidableEq D]

def setPeer (device : D) (peer : Peer D W) (s : Session D W) : Session D W :=
  { s with peers := Function.update s.peers device peer }

/-- `size` and `limit` are the size of a line and `APPLY_BYTES`. A copy commits only while no pull
of it is in flight and none stopped that was not retried. -/
inductive Step (size : OutboxCommit W → ℕ) (limit : ℕ) : Session D W → Act D W → Session D W → Prop
  | commit (s : Session D W) (device : D) (writes : W) (store : Store W)
      (hstore : (s.peers device).copy.store = some store)
      (hpulls : ∀ call, (s.peers device).pulls call = none)
      (hstopped : (s.peers device).stopped = false) :
    Step size limit s (.commit device writes)
      (s.setPeer device { s.peers device with
        copy := ⟨some (store.commit writes), (s.peers device).copy.state⟩ })
  | openStore (s : Session D W) (device : D) :
    Step size limit s (.openStore device)
      (s.setPeer device { s.peers device with copy := (s.peers device).copy.openStore })
  | upload (s : Session D W) (device : D) (call : ℕ)
      (hstore : (s.peers device).copy.store.isSome)
      (hfree : (s.peers device).uploads call = none) :
    Step size limit s (.upload device call)
      (s.setPeer device ((s.peers device).uploadAt call (s.peers device).copy (.inl .reading)))
  | uploadNext (s : Session D W) (device : D) (call : ℕ) (choice : UploadChoice) (upload : Upload D)
      (remote : Remote D W) (copy : Copy W) (next : Upload D ⊕ UploadResult)
      (hcall : (s.peers device).uploads call = some upload)
      (hnext : upload.resume device choice s.remote (s.peers device).copy = (remote, copy, next)) :
    Step size limit s (.uploadNext device call choice)
      { s.setPeer device ((s.peers device).uploadAt call copy next) with remote := remote }
  | uploadStop (s : Session D W) (device : D) (call : ℕ) :
    Step size limit s (.uploadStop device call)
      (s.setPeer device { s.peers device with
        uploads := Function.update (s.peers device).uploads call none })
  | pull (s : Session D W) (device : D) (call : ℕ)
      (hfree : (s.peers device).pulls call = none) :
    Step size limit s (.pull device call)
      (s.setPeer device ((s.peers device).pullAt call (s.peers device).copy
        (.inl (.entered (s.peers device).copy.store.isSome))))
  | pullNext (s : Session D W) (device : D) (call : ℕ) (pull : Pull D W) (copy : Copy W)
      (next : Pull D W ⊕ PullResult)
      (hcall : (s.peers device).pulls call = some pull)
      (hnext : pull.resume size limit s.remote (s.peers device).copy = (copy, next)) :
    Step size limit s (.pullNext device call)
      (s.setPeer device ((s.peers device).pullAt call copy next))
  | pullStop (s : Session D W) (device : D) (call : ℕ)
      (hcall : ((s.peers device).pulls call).isSome) :
    Step size limit s (.pullStop device call)
      (s.setPeer device { s.peers device with
        pulls := Function.update (s.peers device).pulls call none
        stopped := true })
  | fold (s : Session D W) (call : ℕ) (hfree : s.folds call = none) :
    Step size limit s (.fold call)
      { s with folds := Function.update s.folds call (some .entered) }
  | foldNext (s : Session D W) (call : ℕ) (fold : Fold D W) (remote : Remote D W)
      (next : Option (Fold D W)) (hcall : s.folds call = some fold)
      (hnext : fold.resume size limit s.remote = (remote, next)) :
    Step size limit s (.foldNext call)
      { s with remote := remote, folds := Function.update s.folds call next }
  | foldStop (s : Session D W) (call : ℕ) :
    Step size limit s (.foldStop call)
      { s with folds := Function.update s.folds call none }

/-- The remote holds nothing; each device has a store of its own, or none. -/
def system (size : OutboxCommit W → ℕ) (limit : ℕ) : System (Session D W) (Act D W) where
  init := fun s => ∃ stores : D → Option (Store W),
    s = ⟨.empty, fun device => .new (stores device), fun _ => none⟩
  step := Step size limit

end Session

end KnightCode.Sync
