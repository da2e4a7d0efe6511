import KnightCode.Library.Lru

/-!
# The record cache of a Session's Storage

`CachedStorage` serves conversations, tasks and written submissions from memory. A task's record is
in one of three tables: `liveTasks` until it ends; then with the entry that counts the waits naming
it, or in a bounded table. Every batch goes through `published`; the result of a read is kept only
when no batch published since the read started wrote its record.

The records are frozen values here. The fields of a record that the cache never looks at are one
value of type `ρ`.
-/

namespace KnightCode.RecordCache

structure ConversationRecord (ι ρ : Type*) where
  id : ι
  fields : ρ
  deriving DecidableEq

inductive TaskState (ι : Type*)
  | pending
  | running
  | waiting (on : List ι)
  | sleeping
  | completing
  | terminal
  deriving DecidableEq

structure TaskRecord (ι ρ : Type*) where
  id : ι
  state : TaskState ι
  fields : ρ
  deriving DecidableEq

structure SubmissionRecord (ι ρ : Type*) where
  id : ι
  fields : ρ
  deriving DecidableEq

/-- The cache passes entry and document writes by: `other` is any of them. -/
inductive StorageWrite (ι ρ : Type*)
  | conversation (value : ConversationRecord ι ρ)
  | task (value : TaskRecord ι ρ)
  | submission (value : SubmissionRecord ι ρ)
  | other

/-- How many waits name a task, and its ended record once it ended. -/
structure Awaited (ι ρ : Type*) where
  count : ℕ
  record : Option (TaskRecord ι ρ)

/-- What a task waited on, and whether it left. -/
structure Wait (ι : Type*) where
  on : List ι
  left : Bool

/-- The reads of a record in flight, and how many published commits wrote it since the first. -/
structure Reads where
  count : ℕ
  version : ℕ

structure TaskTables (ι ρ : Type*) where
  liveTasks : List (ι × TaskRecord ι ρ)
  awaited : List (ι × Awaited ι ρ)
  waits : List (ι × Wait ι)
  tasks : Lru ι (TaskRecord ι ρ) 256

structure CachedStorage (ι ρ : Type*) extends TaskTables ι ρ where
  conversations : Lru ι (ConversationRecord ι ρ) 4096
  submissions : Lru ι (SubmissionRecord ι ρ) 256
  reads : List (ι × Reads)

variable {ι ρ : Type*} [DecidableEq ι]

def CachedStorage.empty : CachedStorage ι ρ where
  liveTasks := []
  awaited := []
  waits := []
  tasks := Lru.empty
  conversations := Lru.empty
  submissions := Lru.empty
  reads := []

namespace TaskTables

/-- Keep a task record: a live one until its task ends, an ended one in the bounded table. -/
def keepTask (c : TaskTables ι ρ) (record : TaskRecord ι ρ) : TaskTables ι ρ :=
  match record.state with
  | .terminal =>
    let c := { c with liveTasks := Assoc.erase record.id c.liveTasks }
    match Assoc.get record.id c.awaited with
    | some awaited =>
      { c with awaited := Assoc.set record.id { awaited with record := some record } c.awaited }
    | none => { c with tasks := c.tasks.set record.id record }
  | _ =>
    { c with
      tasks := c.tasks.delete record.id
      liveTasks := Assoc.set record.id record c.liveTasks }

/-- One more wait names `id`. -/
def await (c : TaskTables ι ρ) (id : ι) : TaskTables ι ρ :=
  match Assoc.get id c.awaited with
  | some awaited =>
    { c with awaited := Assoc.set id { awaited with count := awaited.count + 1 } c.awaited }
  | none =>
    -- One that ended already moves over from the bounded table.
    let (ended, tasks) := c.tasks.get id
    { c with
      tasks := tasks.delete id
      awaited := Assoc.set id { count := 1, record := ended } c.awaited }

/-- One wait on `id` is over; `none` is the dereference of an entry that is missing. -/
def releaseOne (c : TaskTables ι ρ) (id : ι) : Option (TaskTables ι ρ) :=
  match Assoc.get id c.awaited with
  | none => none
  | some awaited =>
    if 0 < awaited.count - 1 then
      some { c with
        awaited := Assoc.set id { awaited with count := awaited.count - 1 } c.awaited }
    else
      let c := { c with awaited := Assoc.erase id c.awaited }
      match awaited.record with
      | some record => some { c with tasks := c.tasks.set id record }
      | none => some c

def release (c : TaskTables ι ρ) (on : List ι) : Option (TaskTables ι ρ) :=
  on.foldlM releaseOne c

def followWait (c : TaskTables ι ρ) (record : TaskRecord ι ρ) : Option (TaskTables ι ρ) :=
  let wait := Assoc.get record.id c.waits
  match record.state with
  | .waiting on =>
    let released : Option (TaskTables ι ρ) :=
      match wait with
      | some wait => c.release wait.on
      | none => some c
    released.map fun c =>
      on.foldl await { c with waits := Assoc.set record.id { on, left := false } c.waits }
  | state =>
    match wait with
    | none => some c
    | some wait =>
      if wait.left = false ∧ state ≠ .terminal then
        some { c with waits := Assoc.set record.id { wait with left := true } c.waits }
      else
        release { c with waits := Assoc.erase record.id c.waits } wait.on

end TaskTables

namespace CachedStorage

/-- A published commit wrote record `id`: a read of it in flight may have missed that. -/
def wrote (c : CachedStorage ι ρ) (id : ι) : CachedStorage ι ρ :=
  match Assoc.get id c.reads with
  | some reads =>
    { c with reads := Assoc.set id { reads with version := reads.version + 1 } c.reads }
  | none => c

def publishedWrite (c : CachedStorage ι ρ) : StorageWrite ι ρ → Option (CachedStorage ι ρ)
  | .conversation value =>
    let c := c.wrote value.id
    some { c with conversations := c.conversations.set value.id value }
  | .task value =>
    let c := c.wrote value.id
    (c.toTaskTables.followWait value).map fun tables =>
      { c with toTaskTables := tables.keepTask value }
  | .submission value =>
    let c := c.wrote value.id
    some { c with submissions := c.submissions.set value.id value }
  | .other => some c

/-- Apply a batch `commit()` stored, when the Session publishes it. -/
def published (c : CachedStorage ι ρ) (writes : List (StorageWrite ι ρ)) :
    Option (CachedStorage ι ρ) :=
  writes.foldlM publishedWrite c

/-- What the cache serves for a conversation; `none` starts a read of Storage. -/
def conversation (c : CachedStorage ι ρ) (id : ι) :
    Option (ConversationRecord ι ρ) × CachedStorage ι ρ :=
  let (cached, conversations) := c.conversations.get id
  (cached, { c with conversations })

def task (c : CachedStorage ι ρ) (id : ι) : Option (TaskRecord ι ρ) × CachedStorage ι ρ :=
  match Assoc.get id c.liveTasks with
  | some record => (some record, c)
  | none =>
    match (Assoc.get id c.awaited).bind Awaited.record with
    | some record => (some record, c)
    | none =>
      let (cached, tasks) := c.tasks.get id
      (cached, { c with tasks })

/-- Cached as written only: a miss passes through to Storage, and its result is not kept. -/
def submission (c : CachedStorage ι ρ) (id : ι) :
    Option (SubmissionRecord ι ρ) × CachedStorage ι ρ :=
  let (cached, submissions) := c.submissions.get id
  (cached, { c with submissions })

/-- `#keep` up to its `await`: one more read of `id` in flight, at the version returned. -/
def beginRead (c : CachedStorage ι ρ) (id : ι) : ℕ × CachedStorage ι ρ :=
  let reads := (Assoc.get id c.reads).getD { count := 0, version := 0 }
  (reads.version,
    { c with reads := Assoc.set id { reads with count := reads.count + 1 } c.reads })

/-- `#keep` after its `await`, settled or failed: the version found. The closure holds the entry
of `id`, which is in the table as long as a read of it is in flight. -/
def endRead (c : CachedStorage ι ρ) (id : ι) : Option (ℕ × CachedStorage ι ρ) :=
  (Assoc.get id c.reads).map fun reads =>
    (reads.version,
      { c with
        reads :=
          if reads.count - 1 = 0 then Assoc.erase id c.reads
          else Assoc.set id { reads with count := reads.count - 1 } c.reads })

def keepConversation (c : CachedStorage ι ρ) (id : ι) (value : ConversationRecord ι ρ) :
    CachedStorage ι ρ :=
  { c with conversations := c.conversations.set id value }

def keepTask (c : CachedStorage ι ρ) (record : TaskRecord ι ρ) : CachedStorage ι ρ :=
  { c with toTaskTables := c.toTaskTables.keepTask record }

end CachedStorage

/-! ### Published states -/

/-- The records a published state shows, each under its own ID. -/
structure Store (ι ρ : Type*) where
  conversations : ι → Option (ConversationRecord ι ρ)
  tasks : ι → Option (TaskRecord ι ρ)
  submissions : ι → Option (SubmissionRecord ι ρ)
  task_id : ∀ id record, tasks id = some record → record.id = id

namespace Store

def empty : Store ι ρ where
  conversations _ := none
  tasks _ := none
  submissions _ := none
  task_id _ _ h := by cases h

def write (s : Store ι ρ) : StorageWrite ι ρ → Store ι ρ
  | .conversation value =>
    { s with conversations := Function.update s.conversations value.id (some value) }
  | .task value =>
    { s with
      tasks := Function.update s.tasks value.id (some value)
      task_id := by
        intro id record h
        by_cases hid : id = value.id
        · subst hid
          rw [Function.update_self] at h
          cases h
          rfl
        · rw [Function.update_of_ne hid] at h
          exact s.task_id id record h }
  | .submission value =>
    { s with submissions := Function.update s.submissions value.id (some value) }
  | .other => s

def publish (s : Store ι ρ) (writes : List (StorageWrite ι ρ)) : Store ι ρ :=
  writes.foldl write s

/-- The state after a sequence of batches. -/
def after (s : Store ι ρ) (batches : List (List (StorageWrite ι ρ))) : Store ι ρ :=
  batches.foldl publish s

theorem after_append (s : Store ι ρ) (batches : List (List (StorageWrite ι ρ)))
    (writes : List (StorageWrite ι ρ)) :
    s.after (batches ++ [writes]) = (s.after batches).publish writes := by
  simp only [after, List.foldl_append, List.foldl_cons, List.foldl_nil]

end Store

end KnightCode.RecordCache
