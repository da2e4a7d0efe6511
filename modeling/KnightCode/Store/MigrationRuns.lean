import KnightCode.Store.MigrationSteps

/-!
# Runs of a migration

However a migration is interrupted and its history grows, what remains of each first row is the same
before and after every action. So the activation that runs to its end leaves the newest version and
of every row what `remaining` gives, as an activation that nothing interrupts does.
-/

namespace KnightCode.Store

open List Option

variable {κ φ : Type} {json : JsonCodec κ} {fingerprint : TableVersion κ → φ}
  {history longer : TableHistory json} {stored : StoredTable φ}
  {versions more : Versions κ}

/-! ### Longer histories -/

/-- `longer` is `history` and the versions `more`. -/
structure Extends (history longer : TableHistory json)
    (more : Versions κ) : Prop where
  base : longer.base = history.base
  later : longer.later = history.later ++ more

theorem Extends.evolve (history : TableHistory json) (calls : List (EditorCall κ)) :
    ∃ more, Extends history (history.evolve calls) more := by
  unfold TableHistory.evolve
  split
  · exact ⟨_, rfl, rfl⟩
  · exact ⟨[], rfl, (append_nil _).symm⟩

theorem Extends.trans {longest : TableHistory json} {most : Versions κ}
    (h : Extends history longer more) (h' : Extends longer longest most) :
    Extends history longest (more ++ most) :=
  ⟨h'.base.trans h.base, by rw [h'.later, h.later, append_assoc]⟩

theorem Extends.evolveAll (history : TableHistory json) (evolutions : List (List (EditorCall κ))) :
    ∃ more, Extends history (evolutions.foldl TableHistory.evolve history) more := by
  induction evolutions generalizing history with
  | nil => exact ⟨[], rfl, (append_nil _).symm⟩
  | cons calls evolutions ih =>
    obtain ⟨first, hfirst⟩ := Extends.evolve history calls
    obtain ⟨rest, hrest⟩ := ih (history.evolve calls)
    exact ⟨first ++ rest, hfirst.trans hrest⟩

theorem Standing.extend (h : Standing fingerprint history stored versions)
    (hmore : Extends history longer more) :
    Standing fingerprint longer stored (versions ++ more) := by
  cases h with
  | @ready before versions h =>
    have hlater : longer.later = before ++ (versions ++ more) := by
      rw [hmore.later, h.later, append_assoc]
    obtain ⟨-, hstate, hrecorded, hnamed, hstands, hrows⟩ := h
    rw [← hmore.base] at hrecorded hnamed hstands
    exact .ready ⟨hlater, hstate, hrecorded, hnamed, hstands, hrows⟩
  | migrating h =>
    refine .migrating { h with later := ?_, opens := hmore.base ▸ h.opens }
    rw [hmore.later, h.later, append_assoc]
    rfl

theorem Standing.remaining_append (h : Standing fingerprint history stored versions)
    (row : PhysicalRow) :
    remaining json stored.record.state stored.record.columns (versions ++ more) row =
      (remaining json stored.record.state stored.record.columns versions row).bind
        (upgrade json (recordedColumns history.newest.table.columns) more) := by
  cases h with
  | @ready before versions h =>
    have hnewest : history.newest = newestOf (newestOf history.base before) versions := by
      rw [TableHistory.newest, h.later, newestOf_append]
    rw [h.state, hnewest]
    exact upgrade_append json h.stands.columns row
  | @migrating before rest migration version middle step h =>
    have hnewest : history.newest = newestOf version rest := by
      rw [TableHistory.newest, h.later, newestOf_append]
      rfl
    rw [h.state, hnewest, cons_append, remaining, remaining, bind_assoc]
    exact congrArg (Option.bind _) (funext fun row => upgrade_append json rfl row)

/-! ### Plans -/

theorem Evolved.increasing {base : TableVersion κ} (h : Evolved json base versions) :
    (base.table.version :: versions.map fun next => next.2.table.version).Pairwise (· < ·) := by
  induction versions generalizing base with
  | nil => exact pairwise_singleton _ _
  | cons next versions ih =>
    refine pairwise_cons.mpr ⟨fun version hversion => ?_, ih h.2⟩
    obtain ⟨each, heach, rfl⟩ := mem_map.mp hversion
    exact (h.version_le.2 each heach).1

theorem find_version {version : TableVersion κ} {migration : Option (Migration κ)}
    (h : (version, migration) ∈ history.versions) :
    history.versions.find? (fun each => each.1.table.version = version.table.version) =
      some (version, migration) := by
  have hnodup : (history.versions.map fun each => each.1.table.version).Nodup := by
    unfold TableHistory.versions
    rw [map_cons, List.map_map]
    exact history.evolved.increasing.imp fun h => ne_of_lt h
  exact Assoc.find?_of_nodup (fun each : TableVersion κ × Option (Migration κ) =>
    each.1.table.version) hnodup h

theorem mem_versions {before rest : Versions κ}
    (h : history.later = before ++ rest) :
    ∃ migration, (newestOf history.base before, migration) ∈ history.versions := by
  induction before using reverseRecOn with
  | nil => exact ⟨none, mem_cons_self⟩
  | append_singleton before next _ =>
    refine ⟨some next.1, mem_cons_of_mem _ ?_⟩
    rw [newestOf_append, h, map_append, map_append]
    exact mem_append_left _ (mem_append_right _ mem_cons_self)

theorem Standing.plan [DecidableEq φ] (h : Standing fingerprint history stored versions)
    (what : String) :
    (planTable fingerprint history (some stored.record) what = .ok .ready ∧ versions = []) ∨
    (planTable fingerprint history (some stored.record) what = .ok (.migrate versions false) ∧
      stored.record.state = .ready) ∨
    (planTable fingerprint history (some stored.record) what = .ok (.migrate versions true) ∧
      stored.record.state = .migrating) := by
  have howed := h.owed
  cases h with
  | @ready before versions h =>
    have hevolved := history.evolved
    rw [h.later] at hevolved
    obtain ⟨-, hrest⟩ := hevolved.of_append
    have hnewest : history.newest = newestOf (newestOf history.base before) versions := by
      rw [TableHistory.newest, h.later, newestOf_append]
    have hle := hrest.version_le.1
    rw [← hnewest, ← h.recorded] at hle
    obtain ⟨migration, hmem⟩ := mem_versions h.later
    have hfind := find_version hmem
    rw [← h.recorded] at hfind
    rw [h.state] at howed
    rw [planTable, if_neg (not_lt.mpr hle), hfind]
    dsimp only
    rw [if_neg (fun hne => hne h.named), h.state, howed]
    by_cases hlast : stored.record.version = history.newest.table.version
    · rw [if_pos hlast]
      refine .inl ⟨rfl, ?_⟩
      cases versions with
      | nil => rfl
      | cons next versions =>
        have hlt := (hrest.version_le.2 next mem_cons_self)
        rw [← hnewest, ← hlast, h.recorded] at hlt
        omega
    · rw [if_neg hlast]
      exact .inr (.inl ⟨rfl, rfl⟩)
  | @migrating before rest migration version middle step h =>
    have hevolved := history.evolved
    rw [h.later] at hevolved
    obtain ⟨-, -, hrest⟩ := hevolved.of_append
    have hnewest : history.newest = newestOf version rest := by
      rw [TableHistory.newest, h.later, newestOf_append]
      rfl
    have hle := hrest.version_le.1
    rw [← hnewest, ← h.recorded] at hle
    have hmem : (version, some migration) ∈ history.versions := by
      refine mem_cons_of_mem _ (mem_map.mpr ⟨(migration, version), ?_, rfl⟩)
      rw [h.later]
      exact mem_append_right _ mem_cons_self
    have hfind := find_version hmem
    rw [← h.recorded] at hfind
    rw [h.state] at howed
    have hthere : ((some migration).bind (·.step)).isNone = false := by
      rw [bind_some, h.makes]
      rfl
    rw [planTable, if_neg (not_lt.mpr hle), hfind]
    dsimp only
    rw [if_neg (fun hne => hne h.named), h.state, hthere, if_neg Bool.false_ne_true, howed]
    exact .inr (.inr ⟨rfl, rfl⟩)

/-! ### Creation -/

theorem create_sqlColumns (columns : List (Column κ)) (hdistinct : (columns.map (·.name)).Nodup)
    (key : List String) : (SqlTable.create (recordedColumns columns) key).columns =
      (⟨columns, key, [], nodup_nil⟩ : Shape κ).sqlColumns := by
  induction columns using reverseRecOn with
  | nil =>
    funext column
    cases column <;> rfl
  | append_singleton columns column ih =>
    rw [map_append, nodup_append] at hdistinct
    have hnew : ∀ other ∈ columns, other.name ≠ column.name := fun other hother =>
      hdistinct.2.2 _ (mem_map_of_mem hother) _ mem_cons_self
    have hadd := @add_sqlColumns _ ⟨columns, key, [], nodup_nil⟩ _ hnew
    refine Eq.trans ?_ hadd.symm
    rw [← ih hdistinct.1]
    unfold SqlTable.create recordedColumns
    rw [map_append, flatMap_append, foldl_append, map_singleton, flatMap_singleton]

theorem edits_indexes {shape : Shape κ} (indexes : List (String × List String))
    (hnamed : (Assoc.keys (shape.indexes ++ indexes)).Nodup)
    (hcolumns : ∀ index ∈ indexes, ∀ name ∈ index.2, ∃ column ∈ shape.columns, column.name = name) :
    Edits shape (indexes.map fun index => .index index.1 index.2)
      ⟨shape.columns, shape.key, shape.indexes ++ indexes, hnamed⟩ := by
  induction indexes generalizing shape with
  | nil =>
    have hsame : (⟨shape.columns, shape.key, shape.indexes ++ [], hnamed⟩ : Shape κ) = shape := by
      obtain ⟨columns, key, indexes, named⟩ := shape
      simp only [append_nil]
    rw [hsame]
    exact .nil shape
  | cons index indexes ih =>
    have hsplit : Assoc.keys (shape.indexes ++ index :: indexes) =
        Assoc.keys shape.indexes ++ index.1 :: Assoc.keys indexes := map_append
    have hfresh : index.1 ∉ Assoc.keys shape.indexes := by
      rw [hsplit, nodup_append] at hnamed
      exact fun hin => hnamed.2.2 _ hin _ mem_cons_self rfl
    have hset : (shape.index index.1 index.2).indexes = shape.indexes ++ [index] :=
      Assoc.set_of_not_mem _ hfresh
    have hassoc : (shape.index index.1 index.2).indexes ++ indexes =
        shape.indexes ++ index :: indexes := by
      rw [hset, append_assoc, singleton_append]
    have hnamed' : (Assoc.keys ((shape.index index.1 index.2).indexes ++ indexes)).Nodup :=
      hassoc ▸ hnamed
    have hrest := @ih (shape.index index.1 index.2) hnamed' fun each heach =>
      hcolumns each (mem_cons_of_mem _ heach)
    have hlast : (⟨shape.columns, shape.key, shape.indexes ++ index :: indexes, hnamed⟩ :
        Shape κ) = ⟨(shape.index index.1 index.2).columns, (shape.index index.1 index.2).key,
          (shape.index index.1 index.2).indexes ++ indexes, hnamed'⟩ := by
      simp only [hassoc]
      rfl
    rw [hlast]
    refine .cons (.index ((Assoc.get_eq_none_iff _ _).mpr hfresh) ?_) hrest
    exact hcolumns index mem_cons_self

theorem creation_standing (fingerprint : TableVersion κ → φ) (history : TableHistory json) :
    ∃ stored, creation fingerprint history.newest = some stored ∧
      Standing fingerprint history stored [] ∧ stored.sql.rows = [] := by
  let version := history.newest
  let bare : Shape κ := ⟨version.table.columns, version.table.key, [], nodup_nil⟩
  let created : StoredTable φ := {
    record := ⟨version.table.version, .ready, recordedColumns version.table.columns,
      version.table.key, fingerprint version, []⟩
    sql := SqlTable.create (recordedColumns version.table.columns) version.table.key }
  have hstands : Stands created bare :=
    ⟨rfl, rfl, rfl, create_sqlColumns _ version.table.distinct _, rfl, rfl⟩
  have hvalid : bare.Valid := ⟨version.table.distinct, version.table.keyed,
    fun index hindex => absurd hindex not_mem_nil⟩
  have hedits : Edits bare (version.indexes.map fun index => .index index.1 index.2)
      version.shape := @edits_indexes _ bare version.indexes version.named version.indexed
  obtain ⟨stored, happly, happlied⟩ := hedits.applied hstands hvalid
  have hrows : stored.sql.rows = [] := happlied.rows
  obtain ⟨hversion, hstate, hprint⟩ := happlied.record
  refine ⟨stored, ?_, .ready ⟨(append_nil history.later).symm, hstate, hversion,
    hprint.symm, happlied.stands, ?_⟩, hrows⟩
  · have hmap : (version.indexes.map fun index => (.edit (.index index.1 index.2) :
        TableWrite φ)) = (version.indexes.map fun index =>
          TableEdit.index index.1 index.2).map .edit := by
      rw [List.map_map]
      rfl
    rw [creation, hmap, commit_edits]
    exact happly
  · rw [hrows]
    exact ⟨nodup_nil, fun row hrow => absurd hrow not_mem_nil,
      fun row hrow => absurd hrow not_mem_nil⟩

/-! ### Runs -/

/-- What a store may hold of a table whose code has `history`. -/
structure Content (json : JsonCodec κ) (fingerprint : TableVersion κ → φ) where
  history : TableHistory json
  stored : Option (StoredTable φ)
  standing : ∀ table ∈ stored, ∃ versions, Standing fingerprint history table versions

namespace Content

variable (content : Content json fingerprint)

def activation : Activation json φ := ⟨content.history, content.stored, .idle⟩

def rows : Rows := content.stored.elim [] (·.sql.rows)

def remaining (history : TableHistory json) (row : PhysicalRow) : Option PhysicalRow :=
  match content.stored with
  | none => some row
  | some table => Store.remaining json table.record.state table.record.columns
      (history.owed table.record.state table.record.version) row

end Content

/-- The history has grown, and what remains of each row now is what remained of it first. -/
structure Tracks (content : Content json fingerprint) (activation : Activation json φ) : Prop where
  longer : ∃ more, Extends content.history activation.history more
  absent : activation.stored = none → content.stored = none
  present : ∀ stored ∈ activation.stored, ∃ versions,
    Standing fingerprint activation.history stored versions ∧
    List.Forall₂ (fun first row => content.remaining activation.history first =
      remaining json stored.record.state stored.record.columns versions row)
      content.rows stored.sql.rows

def Underway (fingerprint : TableVersion κ → φ) (activation : Activation json φ) : Prop :=
  match activation.progress with
  | .create => activation.stored = none
  | .migrate versions stage => ∃ stored, activation.stored = some stored ∧
      Standing fingerprint activation.history stored versions ∧ StageFits stored versions stage
  | .ready => ∃ stored, activation.stored = some stored ∧
      Standing fingerprint activation.history stored []
  | _ => True

section Runs

variable {content : Content json fingerprint} {activation : Activation json φ}

theorem Content.remaining_append (content : Content json fingerprint)
    {first : Versions κ} (h : Extends content.history history first)
    (hmore : Extends history longer more) {row : PhysicalRow} (hrow : row ∈ content.rows) :
    content.remaining longer row = (content.remaining history row).bind
      (upgrade json (recordedColumns history.newest.table.columns) more) := by
  unfold Content.remaining
  cases hstored : content.stored with
  | none =>
    unfold Content.rows at hrow
    rw [hstored] at hrow
    exact absurd hrow not_mem_nil
  | some table =>
    obtain ⟨versions, hstanding⟩ := content.standing table hstored
    have hhere := hstanding.extend h
    dsimp only
    rw [hhere.owed, (hhere.extend hmore).owed]
    exact hhere.remaining_append row

theorem Tracks.start (content : Content json fingerprint)
    (h : Extends content.history history more) :
    Tracks content ⟨history, content.stored, .idle⟩ := by
  refine ⟨⟨more, h⟩, fun h => h, fun stored hstored => ?_⟩
  obtain ⟨versions, hstanding⟩ := content.standing stored hstored
  have hhere := hstanding.extend h
  have hsome : content.stored = some stored := hstored
  refine ⟨versions ++ more, hhere, ?_⟩
  unfold Content.rows Content.remaining
  rw [hsome]
  dsimp only [Option.elim]
  rw [hhere.owed]
  exact forall₂_same.mpr fun row _ => rfl

/-- How many commits an activation makes yet, at most. -/
def Activation.amount (activation : Activation json φ) : ℕ :=
  match activation.progress, activation.stored with
  | .create, _ => 1
  | progress, some stored => work stored progress
  | _, none => 0

/-- The activation is at its end: the table is at the newest version, or a row cannot be brought to
it. -/
inductive Ended (content : Content json fingerprint) (activation : Activation json φ) : Prop
  | ready (h : activation.progress = .ready)
  | failed (error : Option String) (h : activation.progress = .failed error)
      (hlost : ∃ first ∈ content.rows, content.remaining activation.history first = none)

theorem Tracks.advance (h : Tracks content activation) (hunder : Underway fingerprint activation) :
    Tracks content (activation.advance fingerprint) ∧
      Underway fingerprint (activation.advance fingerprint) ∧
      (activation.advance fingerprint).history = activation.history ∧
      (((activation.progress = .create ∨
        ∃ versions stage, activation.progress = .migrate versions stage)) →
        Ended content (activation.advance fingerprint) ∨
        ((∃ versions stage,
            (activation.advance fingerprint).progress = .migrate versions stage) ∧
          (activation.advance fingerprint).amount < activation.amount)) := by
  obtain ⟨history, held, progress⟩ := activation
  cases progress with
  | create =>
    have hnone : held = none := hunder
    subst hnone
    obtain ⟨created, hcreated, hstanding, hrows⟩ := creation_standing fingerprint history
    have hadvance : Activation.advance fingerprint ⟨history, none, .create⟩ =
        ⟨history, some created, .ready⟩ := by
      unfold Activation.advance
      dsimp only
      rw [hcreated]
    rw [hadvance]
    have habsent : content.stored = none := h.absent rfl
    refine ⟨⟨h.longer, fun hnone => absurd hnone (some_ne_none _), fun stored hstored => ?_⟩,
      ⟨created, rfl, hstanding⟩, rfl, fun _ => .inl (.ready rfl)⟩
    obtain rfl := Option.some.inj hstored
    refine ⟨[], hstanding, ?_⟩
    rw [hrows]
    unfold Content.rows
    rw [habsent]
    exact .nil
  | migrate versions stage =>
    obtain ⟨stored, hstored, hstanding, hstage⟩ := hunder
    have hsome : held = some stored := hstored
    subst hsome
    obtain ⟨through, hthrough, hrows⟩ := h.present stored rfl
    obtain rfl : through = versions := hthrough.owed.symm.trans hstanding.owed
    obtain ⟨error, hmigrate, row, hrow, hlost⟩ |
        ⟨after, next, progress, hmigrate, hnext, hfits, hwork, hkept⟩ :=
      hstanding.proceeds hstage
    · have hadvance :
          Activation.advance fingerprint ⟨history, some stored, .migrate through stage⟩ =
          ⟨history, some stored, .failed error⟩ := by
        unfold Activation.advance
        dsimp only
        rw [hmigrate]
      rw [hadvance]
      obtain ⟨first, hfirst, hsame⟩ := Pointwise.exists_left hrows hrow
      exact ⟨⟨h.longer, h.absent, h.present⟩, trivial, rfl,
        fun _ => .inl (.failed error rfl ⟨first, hfirst, hsame.trans hlost⟩)⟩
    · have hadvance :
          Activation.advance fingerprint ⟨history, some stored, .migrate through stage⟩ =
          ⟨history, some after, progress⟩ := by
        unfold Activation.advance
        dsimp only
        rw [hmigrate]
      rw [hadvance]
      refine ⟨⟨h.longer, fun hnone => absurd hnone (some_ne_none _),
        fun other hother => ?_⟩, ?_, rfl, fun _ => ?_⟩
      · obtain rfl := Option.some.inj hother
        exact ⟨next, hnext, Pointwise.comp hrows hkept fun _ _ _ _ h h' => h.trans h'⟩
      · cases progress with
        | migrate versions stage =>
          obtain ⟨rfl, hstage⟩ := hfits
          exact ⟨after, rfl, hnext, hstage⟩
        | ready =>
          obtain ⟨rfl, -⟩ := hfits
          exact ⟨after, rfl, hnext⟩
        | _ => exact hfits.elim
      · cases progress with
        | migrate versions stage => exact .inr ⟨⟨versions, stage, rfl⟩, hwork⟩
        | ready => exact .inl (.ready rfl)
        | _ => exact hfits.elim
  | idle | failed error =>
    refine ⟨h, trivial, rfl, ?_⟩
    rintro (hprogress | ⟨_, _, hprogress⟩) <;> cases hprogress
  | ready =>
    refine ⟨h, hunder, rfl, ?_⟩
    rintro (hprogress | ⟨_, _, hprogress⟩) <;> cases hprogress

def Activation.commits (fingerprint : TableVersion κ → φ) (n : ℕ)
    (activation : Activation json φ) : Activation json φ :=
  (Activation.advance fingerprint)^[n] activation

theorem Tracks.ends (h : Tracks content activation) (hunder : Underway fingerprint activation)
    (hprogress : activation.progress = .create ∨ activation.progress = .ready ∨
      ∃ versions stage, activation.progress = .migrate versions stage) :
    ∃ n, Ended content (activation.commits fingerprint n) ∧
      Tracks content (activation.commits fingerprint n) ∧
      Underway fingerprint (activation.commits fingerprint n) ∧
      (activation.commits fingerprint n).history = activation.history := by
  induction hamount : activation.amount using Nat.strong_induction_on generalizing activation with
  | _ amount ih =>
    by_cases hready : activation.progress = .ready
    · exact ⟨0, .ready hready, h, hunder, rfl⟩
    · obtain ⟨hnext, hunder', hhistory, hstep⟩ := h.advance hunder
      obtain hended | ⟨hmigrate, hless⟩ :=
        hstep (hprogress.imp_right fun hrest => hrest.resolve_left hready)
      · exact ⟨1, hended, hnext, hunder', hhistory⟩
      · obtain ⟨n, hended, htracks, hlast, hsame⟩ :=
          ih _ (hamount ▸ hless) hnext hunder' (.inr (.inr hmigrate)) rfl
        exact ⟨n + 1, hended, htracks, hlast, hsame.trans hhistory⟩

variable [DecidableEq φ]

theorem Tracks.prepare (h : Tracks content activation) (evolutions : List (List (EditorCall κ))) :
    Tracks content (activation.prepare fingerprint evolutions) ∧
      Underway fingerprint (activation.prepare fingerprint evolutions) ∧
      ((activation.prepare fingerprint evolutions).progress = .create ∨
        (activation.prepare fingerprint evolutions).progress = .ready ∨
        ∃ versions stage,
          (activation.prepare fingerprint evolutions).progress = .migrate versions stage) := by
  obtain ⟨first, hfirst⟩ := h.longer
  obtain ⟨more, hmore⟩ := Extends.evolveAll activation.history evolutions
  let history := evolutions.foldl TableHistory.evolve activation.history
  have hpresent : ∀ stored ∈ activation.stored, ∃ versions,
      Standing fingerprint history stored versions ∧
      List.Forall₂ (fun first row => content.remaining history first =
        remaining json stored.record.state stored.record.columns versions row)
        content.rows stored.sql.rows := by
    intro stored hstored
    obtain ⟨versions, hstanding, hrows⟩ := h.present stored hstored
    refine ⟨versions ++ more, hstanding.extend hmore,
      Pointwise.imp hrows fun row hrow row' heq => ?_⟩
    rw [content.remaining_append hfirst hmore hrow, heq, hstanding.remaining_append]
  refine ⟨⟨⟨first ++ more, hfirst.trans hmore⟩, h.absent, hpresent⟩, ?_⟩
  cases hstored : activation.stored with
  | none =>
    have hprogress : (activation.prepare fingerprint evolutions).progress = .create := by
      unfold Activation.prepare
      rw [hstored]
      rfl
    refine ⟨?_, .inl hprogress⟩
    unfold Underway
    rw [hprogress]
    exact hstored
  | some stored =>
    obtain ⟨versions, hstanding, -⟩ := hpresent stored hstored
    have hplan := hstanding.plan s!"table \"{history.newest.table.name}\""
    have hmapped : activation.stored.map (·.record) = some stored.record := by
      rw [hstored]
      rfl
    obtain ⟨hready, rfl⟩ | ⟨hbegin, hstate⟩ | ⟨hresume, hstate⟩ := hplan
    · have hprogress : (activation.prepare fingerprint evolutions).progress = .ready := by
        unfold Activation.prepare
        dsimp only
        rw [hmapped, hready]
      refine ⟨?_, .inr (.inl hprogress)⟩
      unfold Underway
      rw [hprogress]
      exact ⟨stored, hstored, hstanding⟩
    · have hprogress : (activation.prepare fingerprint evolutions).progress =
          .migrate versions .begin := by
        unfold Activation.prepare
        dsimp only
        rw [hmapped, hbegin]
      refine ⟨?_, .inr (.inr ⟨versions, .begin, hprogress⟩)⟩
      unfold Underway
      rw [hprogress]
      exact ⟨stored, hstored, hstanding, hstate⟩
    · have hprogress : (activation.prepare fingerprint evolutions).progress =
          .migrate versions (.step none) := by
        unfold Activation.prepare
        dsimp only
        rw [hmapped, hresume]
      refine ⟨?_, .inr (.inr ⟨versions, .step none, hprogress⟩)⟩
      unfold Underway
      rw [hprogress]
      exact ⟨stored, hstored, hstanding, hstate, fun _ _ _ _ _ _ hlast => by cases hlast⟩

theorem Tracks.perform (h : Tracks content activation) (hunder : Underway fingerprint activation)
    (action : Action κ) :
    Tracks content (activation.perform fingerprint action) ∧
      Underway fingerprint (activation.perform fingerprint action) := by
  cases action with
  | prepare evolutions => exact ⟨(h.prepare evolutions).1, (h.prepare evolutions).2.1⟩
  | commit => exact ⟨(h.advance hunder).1, (h.advance hunder).2.1⟩
  | stop => exact ⟨⟨h.longer, h.absent, h.present⟩, trivial⟩

theorem Tracks.run (h : Tracks content activation) (hunder : Underway fingerprint activation)
    (actions : List (Action κ)) :
    Tracks content (actions.foldl (Activation.perform fingerprint) activation) ∧
      Underway fingerprint (actions.foldl (Activation.perform fingerprint) activation) := by
  induction actions generalizing activation with
  | nil => exact ⟨h, hunder⟩
  | cons action actions ih =>
    obtain ⟨hnext, hunder⟩ := h.perform hunder action
    exact ih hnext hunder

end Runs

/-- The table is `ready` at the newest version, with its columns, key and indexes, and `rows`. -/
structure Brought (fingerprint : TableVersion κ → φ) (activation : Activation json φ)
    (rows : Rows) : Prop where
  progress : activation.progress = .ready
  stored : ∃ stored, activation.stored = some stored ∧
    Stands stored activation.history.newest.shape ∧ stored.record.state = .ready ∧
    stored.record.version = activation.history.newest.table.version ∧
    fingerprint activation.history.newest = stored.record.fingerprint ∧ stored.sql.rows = rows

theorem Standing.newest {stored : StoredTable φ} (h : Standing fingerprint history stored []) :
    Stands stored history.newest.shape ∧ stored.record.state = .ready ∧
      stored.record.version = history.newest.table.version ∧
      fingerprint history.newest = stored.record.fingerprint := by
  cases h with
  | @ready before versions h =>
    have heq : history.newest = newestOf history.base before := by
      rw [TableHistory.newest, h.later, append_nil]
    rw [heq]
    exact ⟨h.stands, h.state, h.recorded, h.named⟩

theorem Standing.eq_of_rows {other : StoredTable φ} (h : Standing fingerprint history stored [])
    (h' : Standing fingerprint history other []) (hrows : stored.sql.rows = other.sql.rows) :
    stored = other := by
  obtain ⟨hstands, hstate, hversion, hprint⟩ := h.newest
  obtain ⟨hstands', hstate', hversion', hprint'⟩ := h'.newest
  obtain ⟨⟨version, state, columns, key, print, indexes⟩, sql⟩ := stored
  obtain ⟨⟨version', state', columns', key', print', indexes'⟩, sql'⟩ := other
  obtain rfl : version = version' := hversion.trans hversion'.symm
  obtain rfl : state = state' := hstate.trans hstate'.symm
  obtain rfl : columns = columns' := hstands.columns.trans hstands'.columns.symm
  obtain rfl : key = key' := hstands.key.trans hstands'.key.symm
  obtain rfl : print = print' := hprint.symm.trans hprint'
  obtain rfl : indexes = indexes' := hstands.indexes.trans hstands'.indexes.symm
  refine congrArg (StoredTable.mk _) (SqlTable.ext ?_ ?_ ?_ hrows)
  · exact hstands.sqlColumns.trans hstands'.sqlColumns.symm
  · exact hstands.sqlKey.trans hstands'.sqlKey.symm
  · exact hstands.sqlIndexes.trans hstands'.sqlIndexes.symm

variable {content : Content json fingerprint}

/-- At its end an activation has brought the table to the newest version, with each first row as
what remained makes it. -/
theorem Ended.brought {activation : Activation json φ} (hended : Ended content activation)
    (h : Tracks content activation) (hunder : Underway fingerprint activation) :
    (∃ stored, activation.stored = some stored ∧
      Standing fingerprint activation.history stored [] ∧ activation.progress = .ready ∧
      content.rows.mapM (content.remaining activation.history) = some stored.sql.rows) ∨
    (∃ error, activation.progress = .failed error) ∧
      content.rows.mapM (content.remaining activation.history) = none := by
  cases hended with
  | ready hready =>
    unfold Underway at hunder
    rw [hready] at hunder
    obtain ⟨stored, hstored, hstanding⟩ := hunder
    obtain ⟨versions, hversions, hrows⟩ := h.present stored hstored
    obtain rfl : versions = [] := hversions.owed.symm.trans hstanding.owed
    refine .inl ⟨stored, hstored, hstanding, hready, Pointwise.mapM_eq (hrows.imp ?_)⟩
    intro first row hsame
    rw [hsame, hstanding.ready_of_nil]
    rfl
  | failed error herror hlost =>
    obtain ⟨first, hfirst, hnone⟩ := hlost
    exact .inr ⟨⟨error, herror⟩, Pointwise.mapM_none hfirst hnone⟩

def EndAlike (fingerprint : TableVersion κ → φ) (last uninterrupted : Activation json φ) :
    Option Rows → Prop
  | some rows => ∃ n m, Brought fingerprint (last.commits fingerprint n) rows ∧
      Brought fingerprint (uninterrupted.commits fingerprint m) rows ∧
      (last.commits fingerprint n).stored = (uninterrupted.commits fingerprint m).stored
  | none => ∃ n m error error', (last.commits fingerprint n).progress = .failed error ∧
      (uninterrupted.commits fingerprint m).progress = .failed error'

theorem Tracks.endAlike [DecidableEq φ] {last : Activation json φ} (hlast : Tracks content last)
    (hlastUnder : Underway fingerprint last)
    (hprogress : last.progress = .create ∨ last.progress = .ready ∨
      ∃ versions stage, last.progress = .migrate versions stage) :
    EndAlike fingerprint last
      (Activation.prepare fingerprint ⟨last.history, content.stored, .idle⟩ [])
      (content.rows.mapM (content.remaining last.history)) := by
  obtain ⟨more, hmore⟩ := hlast.longer
  obtain ⟨hfresh, hfreshUnder, hfreshProgress⟩ := (Tracks.start content hmore).prepare []
  obtain ⟨n, hended, hthere, hthereUnder, hhistory⟩ := hlast.ends hlastUnder hprogress
  obtain ⟨m, hended', hthere', hthereUnder', hhistory'⟩ :=
    hfresh.ends hfreshUnder hfreshProgress
  have hbrought := hended.brought hthere hthereUnder
  have hbrought' := hended'.brought hthere' hthereUnder'
  have hhistory' : (Activation.commits fingerprint m (Activation.prepare fingerprint
      ⟨last.history, content.stored, .idle⟩ [])).history = last.history := hhistory'
  rw [hhistory] at hbrought
  rw [hhistory'] at hbrought'
  obtain ⟨stored, hstored, hstanding, hready, hrows⟩ | ⟨⟨error, herror⟩, hnone⟩ := hbrought
  · obtain ⟨other, hother, hstanding', hready', hrows'⟩ | ⟨-, hnone⟩ := hbrought'
    · have hequal : stored.sql.rows = other.sql.rows :=
        Option.some.inj (hrows.symm.trans hrows')
      obtain rfl := hstanding.eq_of_rows hstanding' hequal
      rw [hrows]
      obtain ⟨hstands, hstate, hversion, hprint⟩ := hstanding.newest
      refine ⟨n, m, ⟨hready, stored, hstored, ?_⟩, ⟨hready', stored, hother, ?_⟩,
        hstored.trans hother.symm⟩
      · rw [hhistory]
        exact ⟨hstands, hstate, hversion, hprint, rfl⟩
      · rw [hhistory']
        exact ⟨hstands, hstate, hversion, hprint, rfl⟩
    · cases hrows.symm.trans hnone
  · obtain ⟨other, hother, hstanding', hready', hrows'⟩ | ⟨⟨error', herror'⟩, -⟩ := hbrought'
    · cases hrows'.symm.trans hnone
    · rw [hnone]
      exact ⟨n, m, error, error', herror, herror'⟩

/-- After any actions, interruptions among them, the next activation brings the table where one that
nothing interrupts brings it: each row through the data step of every version once, in order. -/
theorem migration_resumes [DecidableEq φ] (content : Content json fingerprint)
    (actions : List (Action κ)) (evolutions : List (List (EditorCall κ))) :
    let last := (actions.foldl (Activation.perform fingerprint) content.activation).prepare
      fingerprint evolutions
    EndAlike fingerprint last
      (Activation.prepare fingerprint ⟨last.history, content.stored, .idle⟩ [])
      (content.rows.mapM (content.remaining last.history)) := by
  have hstart : Tracks content content.activation :=
    Tracks.start content ⟨rfl, (append_nil _).symm⟩
  obtain ⟨htracks, hunder⟩ := hstart.run trivial actions
  obtain ⟨hlast, hlastUnder, hprogress⟩ := htracks.prepare evolutions
  exact hlast.endAlike hlastUnder hprogress

/-- No value is kept as JSON. -/
def plainJson : JsonCodec Unit :=
  ⟨fun _ => none, fun _ => .null, fun _ => "value", fun _ _ h => by cases h⟩

def tallies : TableVersion Unit where
  table :=
    { name := "tallies"
      version := 1
      columns := [⟨"id", .scalar .int, false, none⟩, ⟨"count", .scalar .int, false, none⟩]
      key := ["id"]
      distinct := by decide
      keyed := fun name hname =>
        ⟨_, mem_cons_self, (mem_singleton.mp hname).symm, rfl, .int, rfl, .inr rfl⟩
      defaulted := by simp }
  indexes := []
  named := nodup_nil
  indexed := fun _ h => by cases h

def numbered (version : TableVersion Unit) : ℕ := version.table.version

def tally : PhysicalRow := fun column => .integer (if column = .rowVersion then 1 else 7)

def tallied : Content plainJson numbered where
  history := ⟨tallies, [], trivial⟩
  stored := some ⟨⟨1, .ready, tallies.shape.recorded, ["id"], 1, []⟩,
    { SqlTable.create tallies.shape.recorded ["id"] with rows := [tally] }⟩
  standing := by
    rintro _ ⟨⟩
    refine ⟨[], @Standing.ready _ _ _ _ _ _ [] _ ⟨rfl, rfl, rfl, rfl, ⟨rfl, rfl, rfl, ?_, rfl, rfl⟩,
      ⟨by simp, ?_, ?_⟩⟩⟩
    · exact create_sqlColumns _ tallies.table.distinct _
    · exact fun row hrow name _ => .inr ⟨7, by rw [mem_singleton.mp hrow]; rfl⟩
    · exact fun row hrow => ⟨1, by rw [mem_singleton.mp hrow]; rfl, le_rfl⟩

def raise : List (EditorCall Unit) := [.rows fun _ => some [("count", .number (some 8))]]

/-- A process that stops in the middle of a migration, and one with two more versions. -/
def interrupted : Activation plainJson ℕ :=
  ([.prepare [raise], .commit, .stop].foldl (Activation.perform numbered)
    tallied.activation).prepare numbered [raise, raise]

theorem migration_resumes_interrupted : EndAlike numbered interrupted
    (Activation.prepare numbered ⟨interrupted.history, tallied.stored, .idle⟩ [])
    (tallied.rows.mapM (tallied.remaining interrupted.history)) :=
  migration_resumes tallied [.prepare [raise], .commit, .stop] [raise, raise]

example : interrupted.history.later.length = 3 ∧
    (interrupted.stored.map fun s => (s.record.version, s.record.state)) = some (2, .migrating) ∧
    (tallied.rows.mapM (tallied.remaining interrupted.history)).map (·.map (· (.cell "count"))) =
      some [.integer 8] := by decide +kernel

end KnightCode.Store
