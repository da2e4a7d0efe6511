import KnightCode.Session.Manager

/-!
# A session outlives failed writes

A line feed separates what is read before it from what is read behind it, so an append behind a
line feed adds one entry to what the file loads as, and a torn append none. Memory and file stay in
step as long as nothing is written behind a torn line and the first write does not leave a file
behind.
-/

namespace KnightCode.SessionManager

open List Option
open JsonText (Value parse)

/-! ### What a file loads as -/

theorem lines_newline (pending t u : Text) :
    lines pending (t ++ 10 :: u) = lines pending t ++ lines [] u := by
  induction t generalizing pending with
  | nil => rfl
  | cons c t ih =>
    rw [cons_append, lines, lines]
    by_cases hc : c = 10
    · rw [if_pos hc, if_pos hc, ih, cons_append]
    · rw [if_neg hc, if_neg hc, ih]

theorem lines_line {pending t : Text} (h : 10 ∉ t) : lines pending t = [pending ++ t] := by
  induction t generalizing pending with
  | nil => rw [lines, append_nil]
  | cons c t ih =>
    rw [mem_cons, not_or] at h
    rw [lines, if_neg (Ne.symm h.1), ih h.2, append_assoc, singleton_append]

theorem fileEntries_newline (front back : List UInt8) :
    fileEntries (front ++ 10 :: back) = fileEntries front ++ fileEntries back := by
  unfold fileEntries
  rw [Utf8.decode_newline, lines_newline, filterMap_append]

theorem fileEntries_nil : fileEntries [] = [] := rfl

theorem fileEntries_append {bytes : List UInt8} (h : bytes.getLast?.all (· = 10) = true)
    (more : List UInt8) : fileEntries (bytes ++ more) = fileEntries bytes ++ fileEntries more := by
  rcases eq_nil_or_concat bytes with rfl | ⟨front, b, rfl⟩
  · rw [fileEntries_nil, nil_append, nil_append]
  · have hb : b = 10 := by simpa using h
    rw [hb, concat_eq_append, append_assoc, singleton_append, fileEntries_newline,
      fileEntries_newline, fileEntries_nil, append_nil]

theorem line_eq (e : FileEntry) : line e = Utf8.encode e.print ++ [10] := by
  unfold line
  rw [Utf8.encode_append e.line_print.1]
  rfl

theorem fileEntries_encode (members : List (Text × Value)) :
    fileEntries (Utf8.encode (Value.object members).print) = [.object members] := by
  have hline := (Value.object members).line_print
  have hdecode := Utf8.decode_encoded hline.1 []
  rw [append_nil] at hdecode
  have hblank : (Value.object members).print.all isBlank = false := by
    rw [Value.print]
    rfl
  have hentry : lineEntry (Value.object members).print = some (.object members) := by
    unfold lineEntry parseSessionEntryLine
    rw [hblank, if_neg Bool.false_ne_true, JsonText.parse_print]
    rfl
  unfold fileEntries
  rw [hdecode, lines_line (by simpa [Utf8.decode, Utf8.decodeFrom, Utf8.initial] using hline.2)]
  simp [Utf8.decode, Utf8.decodeFrom, Utf8.initial, hentry]

theorem fileEntries_cut (members : List (Text × Value)) {n : ℕ}
    (hn : n < (Utf8.encode (Value.object members).print).length) :
    fileEntries ((line (.object members)).take n) = [] := by
  have hline := (Value.object members).line_print
  obtain ⟨part, tail, hdecode, hpart, hproper, htail⟩ := Utf8.decode_take hline.1 hn
  have hparse := JsonText.parse_cut hpart hproper htail
  have hentry : lineEntry (part ++ tail) = none := by
    unfold lineEntry parseSessionEntryLine
    rw [hparse, ite_self]
    rfl
  have hnewline : 10 ∉ part ++ tail := by
    intro hm
    rcases mem_append.mp hm with hm | hm
    · exact hline.2 (hpart.subset hm)
    · rcases htail with rfl | rfl
      · exact absurd hm not_mem_nil
      · exact absurd hm (by decide)
  rw [line_eq, take_append_of_le_length hn.le]
  unfold fileEntries
  rw [hdecode, lines_line hnewline]
  simp [hentry]

def IsObject (e : FileEntry) : Prop :=
  ∃ members, e = .object members

variable {e : FileEntry}

theorem fileEntries_line (h : IsObject e) (more : List UInt8) :
    fileEntries (line e ++ more) = e :: fileEntries more := by
  obtain ⟨members, rfl⟩ := h
  rw [line_eq, append_assoc, singleton_append, fileEntries_newline, fileEntries_encode]
  rfl

variable {entries : List FileEntry}

theorem fileEntries_lines (h : ∀ e ∈ entries, IsObject e) :
    fileEntries (entries.flatMap line) = entries := by
  induction entries with
  | nil => rfl
  | cons e entries ih =>
    rw [flatMap_cons, fileEntries_line (h e mem_cons_self),
      ih fun f hf => h f (mem_cons_of_mem e hf)]

theorem fileEntries_repair (bytes : List UInt8) :
    fileEntries (repairFinalNewline bytes) = fileEntries bytes := by
  unfold repairFinalNewline
  split_ifs
  · rfl
  · rw [fileEntries_newline, fileEntries_nil, append_nil]

/-! ### What an append makes -/

theorem get_entry {key id : Text} {parentId : Option Text} {d : Draft}
    (hkey : key ∈ [ascii "type", ascii "id", ascii "parentId"]) :
    (d.entry id parentId).get key =
      ([(ascii "type", Value.string d.type), (ascii "id", .string id),
        (ascii "parentId", (parentId.map Value.string).getD .null),
        (ascii "timestamp", .string d.timestamp)].filter fun m => m.1 = key).getLast?.map
          Prod.snd := by
  have hnone : ∀ members : List (Text × Value), (∀ m ∈ members, m.1 ≠ key) →
      (members.filter fun m => m.1 = key) = [] := by
    intro members h
    refine filter_eq_nil_iff.mpr fun m hm => ?_
    simpa using h m hm
  have hfresh : ∀ m ∈ d.leading ++ d.rest, m.1 ≠ key := by
    rintro m hm rfl
    exact d.fresh m hm hkey
  have hleading := hnone d.leading fun m hm => hfresh m (mem_append_left _ hm)
  have hrest := hnone d.rest fun m hm => hfresh m (mem_append_right _ hm)
  unfold Draft.entry Value.get
  dsimp only
  rw [← singleton_append, filter_append, filter_append, filter_append,
    hleading, hrest, nil_append, append_nil, ← filter_append]
  rfl

theorem id?_entry (id : Text) (parentId : Option Text) (d : Draft) :
    id? (d.entry id parentId) = some id := by
  have h₁ : ascii "type" ≠ ascii "id" := by decide
  have h₂ : ascii "parentId" ≠ ascii "id" := by decide
  have h₃ : ascii "timestamp" ≠ ascii "id" := by decide
  unfold id?
  rw [get_entry (by simp)]
  simp [h₁, h₂, h₃, string?]

theorem parentId?_entry (id : Text) (parentId : Option Text) (d : Draft) :
    parentId? (d.entry id parentId) = parentId := by
  have h₁ : ascii "type" ≠ ascii "parentId" := by decide
  have h₂ : ascii "id" ≠ ascii "parentId" := by decide
  have h₃ : ascii "timestamp" ≠ ascii "parentId" := by decide
  unfold parentId?
  rw [get_entry (by simp)]
  cases parentId with
  | none | some parentId => simp [h₁, h₂, h₃, string?]

/-! ### The invariant -/

/-- Every id the index knows, the leaf too, is that of an entry. -/
structure Manager.Indexed (m : Manager) : Prop where
  byId : ∀ id e, Assoc.get id m.byId = some e → ∃ f ∈ m.fileEntries, id? f = some id
  leaf : ∀ id, m.leafId = some id → (Assoc.get id m.byId).isSome

theorem Manager.Indexed.leaf_mem {m : Manager} (h : m.Indexed) {id : Text}
    (hid : m.leafId = some id) : ∃ f ∈ m.fileEntries, id? f = some id := by
  obtain ⟨e, he⟩ := isSome_iff_exists.mp (h.leaf id hid)
  exact h.byId id e he

structure World.Inv (w : World) : Prop where
  entries : w.manager.fileEntries = w.opened ++ w.added
  parented : Parented w.opened.length w.manager.fileEntries
  indexed : w.manager.Indexed
  header : w.manager.fileEntries.head?.any isHeader = true
  flushed : w.manager.flushed = true →
    ∃ bytes, w.file = some bytes ∧ fileEntries bytes = w.manager.fileEntries
  fresh : w.manager.flushed = false → w.file = none ∧ w.manager.hasConversation = false ∧
    ∀ e ∈ w.manager.fileEntries, IsObject e

namespace Manager
variable {m : Manager}

theorem Indexed.push (h : m.Indexed) {id : Text} (he : id? e = some id) :
    (m.push id e).Indexed := by
  refine ⟨?_, ?_⟩
  · intro id' e' hget
    change Assoc.get id' (Assoc.set id e m.byId) = some e' at hget
    rw [Assoc.get_set] at hget
    by_cases hid : id = id'
    · rw [← hid]
      exact ⟨e, mem_append_right _ (mem_singleton.mpr rfl), he⟩
    · rw [if_neg hid] at hget
      obtain ⟨f, hf, hid'⟩ := h.byId id' e' hget
      exact ⟨f, mem_append_left _ hf, hid'⟩
  · intro id' hleaf
    obtain rfl : id = id' := some.inj hleaf
    change (Assoc.get id (Assoc.set id e m.byId)).isSome = true
    rw [Assoc.get_set_self]
    rfl

theorem pop_push {id : Text} (e : FileEntry) (h : Assoc.get id m.byId = none) :
    (m.push id e).pop id m.leafId = m := by
  have hentries : (m.fileEntries ++ [e]).dropLast = m.fileEntries := dropLast_concat
  have hbyId : Assoc.erase id (Assoc.set id e m.byId) = m.byId := Assoc.erase_set h
  unfold push pop
  dsimp only
  rw [hentries, hbyId]

theorem indexEntry_fixed (m : Manager) (e : FileEntry) :
    (m.indexEntry e).fileEntries = m.fileEntries ∧ (m.indexEntry e).flushed = m.flushed := by
  unfold indexEntry
  split_ifs
  · exact ⟨rfl, rfl⟩
  · cases id? e with
    | none => exact ⟨rfl, rfl⟩
    | some id => exact ⟨rfl, rfl⟩

theorem Indexed.indexEntry (h : m.Indexed) (he : e ∈ m.fileEntries) :
    (m.indexEntry e).Indexed := by
  unfold Manager.indexEntry
  split_ifs
  · exact h
  · cases hid : id? e with
    | none => exact h
    | some id =>
      refine ⟨?_, ?_⟩
      · intro id' e' hget
        change Assoc.get id' (Assoc.set id e m.byId) = some e' at hget
        rw [Assoc.get_set] at hget
        by_cases heq : id = id'
        · rw [← heq]
          exact ⟨e, he, hid⟩
        · rw [if_neg heq] at hget
          exact h.byId id' e' hget
      · intro id' hleaf
        obtain rfl : id = id' := some.inj hleaf
        change (Assoc.get id (Assoc.set id e m.byId)).isSome = true
        rw [Assoc.get_set_self]
        rfl

theorem indexed_buildIndex (m : Manager) :
    m.buildIndex.Indexed ∧ m.buildIndex.fileEntries = m.fileEntries ∧
      m.buildIndex.flushed = m.flushed := by
  have hfold : ∀ entries : List FileEntry, ∀ m' : Manager, (∀ e ∈ entries, e ∈ m'.fileEntries) →
      m'.Indexed → (entries.foldl Manager.indexEntry m').Indexed ∧
        (entries.foldl Manager.indexEntry m').fileEntries = m'.fileEntries ∧
        (entries.foldl Manager.indexEntry m').flushed = m'.flushed := by
    intro entries
    induction entries with
    | nil => exact fun m' _ h => ⟨h, rfl, rfl⟩
    | cons e entries ih =>
      intro m' hm h
      obtain ⟨hentries, hflushed⟩ := indexEntry_fixed m' e
      have hrest := ih (m'.indexEntry e)
        (fun f hf => by rw [hentries]; exact hm f (mem_cons_of_mem e hf))
        (h.indexEntry (hm e mem_cons_self))
      rw [hentries, hflushed] at hrest
      exact hrest
  refine hfold m.fileEntries { m with byId := [], leafId := none } (fun e he => he) ⟨?_, ?_⟩
  · intro id e hget
    cases hget
  · intro id hleaf
    cases hleaf

end Manager

theorem Parented.concat {n : ℕ} (h : Parented n entries)
    (he : ∀ id, parentId? e = some id → ∃ parent ∈ entries, id? parent = some id) :
    Parented n (entries ++ [e]) := by
  intro front f back heq hle id hid
  rcases eq_nil_or_concat back with rfl | ⟨back, g, rfl⟩
  · obtain ⟨hfront, hlast⟩ := append_inj' heq rfl
    rw [← hfront]
    exact he id (by rw [cons.inj hlast |>.1]; exact hid)
  · rw [concat_eq_append, ← cons_append, ← append_assoc] at heq
    exact h front f back (append_inj' heq rfl).1 hle id hid

namespace World

variable {w : World}
variable {draft : Draft} {id : Text} {write : Write}

theorem newSession_inv (id timestamp cwd : Text) (parentSession : Option Text) :
    (newSession (newHeader id timestamp cwd parentSession)).Inv := by
  have hobject : IsObject (newHeader id timestamp cwd parentSession) := ⟨_, rfl⟩
  have hheader : isHeader (newHeader id timestamp cwd parentSession) = true := by
    cases parentSession <;> rfl
  have hconversation : isConversation (newHeader id timestamp cwd parentSession) = false := by
    cases parentSession <;> rfl
  refine ⟨rfl, ?_, ⟨?_, ?_⟩, ?_, ?_, ?_⟩
  · intro front e back heq hle
    have hlength := congrArg length heq
    simp only [newSession, length_append, length_cons, length_nil] at hlength hle
    omega
  · intro id e hget
    cases hget
  · intro id hleaf
    cases hleaf
  · exact hheader
  · intro hflushed
    cases hflushed
  · refine fun _ => ⟨rfl, ?_, ?_⟩
    · simp [Manager.hasConversation, newSession, hconversation]
    · intro e he
      rw [mem_singleton.mp he]
      exact hobject

theorem openSession_inv {bytes : List UInt8}
    (h : (fileEntries bytes).head?.any isHeader = true) : (openSession bytes).Inv := by
  obtain ⟨hindexed, hentries, hflushed⟩ :=
    Manager.indexed_buildIndex ⟨true, fileEntries bytes, [], none⟩
  refine ⟨?_, ?_, hindexed, ?_, ?_, ?_⟩
  · exact hentries.trans (append_nil _).symm
  · intro front e back heq hle
    have hlength := congrArg length (hentries.symm.trans heq)
    simp only [openSession, length_append, length_cons] at hlength hle
    omega
  · exact (congrArg (fun entries => entries.head?.any isHeader) hentries).trans h
  · exact fun _ => ⟨_, rfl, (fileEntries_repair bytes).trans hentries.symm⟩
  · intro hfalse
    have htrue : true = false := hflushed.symm.trans hfalse
    cases htrue

variable {file : Option (List UInt8)}

theorem Inv.added (h : w.Inv) {flushed : Bool}
    (hflushed : flushed = true → ∃ bytes, file = some bytes ∧
      fileEntries bytes = w.manager.fileEntries ++ [draft.entry id w.manager.leafId])
    (hfresh : flushed = false → file = none ∧ w.manager.flushed = false ∧
      (w.manager.push id (draft.entry id w.manager.leafId)).hasConversation = false) :
    World.Inv { w with
      manager := { w.manager.push id (draft.entry id w.manager.leafId) with flushed }
      file
      added := w.added ++ [draft.entry id w.manager.leafId] } := by
  have hindexed := h.indexed.push (id?_entry id w.manager.leafId draft)
  refine ⟨?_, ?_, ⟨hindexed.byId, hindexed.leaf⟩, ?_, hflushed, ?_⟩
  · change w.manager.fileEntries ++ [_] = _
    rw [h.entries, append_assoc]
  · refine h.parented.concat ?_
    rw [parentId?_entry]
    exact fun id hid => h.indexed.leaf_mem hid
  · change (w.manager.fileEntries ++ [_]).head?.any isHeader = true
    have hheader := h.header
    cases hentries : w.manager.fileEntries with
    | nil =>
      rw [hentries] at hheader
      cases hheader
    | cons e entries =>
      rw [hentries] at hheader
      exact hheader
  · intro hfalse
    obtain ⟨hfile, hunflushed, hconversation⟩ := hfresh hfalse
    refine ⟨hfile, hconversation, ?_⟩
    intro e he
    rcases mem_append.mp he with he | he
    · exact (h.fresh hunflushed).2.2 e he
    · rw [mem_singleton.mp he]
      exact ⟨_, rfl⟩

theorem manager_failed (hid : Assoc.get id w.manager.byId = none)
    (hfails : (w.persisting draft id write).returned = false) :
    (w.appendEntry draft id write).manager = w.manager := by
  have hpush : (w.manager.push id (draft.entry id w.manager.leafId)).flushed =
      w.manager.flushed := rfl
  have hflushed : (w.persisting draft id write).flushed = w.manager.flushed := by
    unfold persisting persist at hfails ⊢
    rw [hpush] at hfails ⊢
    cases hm : w.manager.flushed with
    | true =>
      rw [if_pos rfl]
      cases write <;> rfl
    | false =>
      rw [hm, if_neg Bool.false_ne_true] at hfails
      rw [if_neg Bool.false_ne_true]
      by_cases hc : (w.manager.push id (draft.entry id w.manager.leafId)).hasConversation = false
      · rw [if_pos hc]
      · rw [if_neg hc] at hfails ⊢
        cases hfile : w.file with
        | some bytes => rfl
        | none =>
          rw [hfile] at hfails
          cases write <;> first | rfl | cases hfails
  unfold appendEntry
  dsimp only
  rw [hfails, if_neg Bool.false_ne_true, Manager.pop_push _ hid, hflushed]

theorem Inv.same_manager (h : w.Inv)
    (hflushed : w.manager.flushed = true →
      ∃ bytes, file = some bytes ∧ fileEntries bytes = w.manager.fileEntries)
    (hfresh : w.manager.flushed = false → file = none) : World.Inv { w with file } :=
  { h with flushed := hflushed, fresh := fun hfalse => ⟨hfresh hfalse, (h.fresh hfalse).2⟩ }

theorem appendEntry_returned {persisted : Persisted} (hp : w.persisting draft id write = persisted)
    (hr : persisted.returned = true) :
    w.appendEntry draft id write = { w with
      manager := { w.manager.push id (draft.entry id w.manager.leafId) with
        flushed := persisted.flushed }
      file := persisted.file
      added := w.added ++ [draft.entry id w.manager.leafId] } := by
  unfold appendEntry
  dsimp only
  rw [hp, if_pos hr]

theorem appendEntry_failed {persisted : Persisted} (hid : Assoc.get id w.manager.byId = none)
    (hp : w.persisting draft id write = persisted) (hr : persisted.returned = false) :
    w.appendEntry draft id write = { w with file := persisted.file } := by
  have hmanager := manager_failed hid (hp ▸ hr : (w.persisting draft id write).returned = false)
  have hrest : w.appendEntry draft id write =
      { w with manager := (w.appendEntry draft id write).manager, file := persisted.file } := by
    unfold appendEntry
    dsimp only
    rw [hp, hr, if_neg Bool.false_ne_true]
  rw [hrest, hmanager]

theorem Inv.append_flushed (h : w.Inv) (hid : Assoc.get id w.manager.byId = none)
    (hm : w.manager.flushed = true) (hcalm : w.Calm (.append draft id write)) :
    (w.appendEntry draft id write).Inv := by
  obtain ⟨bytes, hfile, hload⟩ := h.flushed hm
  have hobject : IsObject (draft.entry id w.manager.leafId) := ⟨_, rfl⟩
  have hpush : (w.manager.push id (draft.entry id w.manager.leafId)).flushed = true := hm
  cases write with
  | complete =>
    have hp : w.persisting draft id .complete =
        ⟨true, true, some (bytes ++ line (draft.entry id w.manager.leafId))⟩ := by
      unfold persisting persist
      rw [hpush, if_pos rfl, hfile]
      rfl
    have hstart : bytes.getLast?.all (· = 10) = true := by
      have hc := hcalm hm
      rw [hfile] at hc
      exact hc
    rw [appendEntry_returned hp rfl]
    refine h.added (fun _ => ⟨_, rfl, ?_⟩) (fun hfalse => by cases hfalse)
    rw [fileEntries_append hstart, hload]
    have hline := fileEntries_line hobject []
    rw [append_nil, fileEntries_nil] at hline
    rw [hline]
  | refused =>
    have hp : w.persisting draft id .refused = ⟨false, true, w.file⟩ := by
      unfold persisting persist
      rw [hpush, if_pos rfl]
    rw [appendEntry_failed hid hp rfl]
    exact h
  | torn n =>
    have hp : w.persisting draft id (.torn n) =
        ⟨false, true, some (bytes ++ (line (draft.entry id w.manager.leafId)).take n)⟩ := by
      unfold persisting persist
      rw [hpush, if_pos rfl, hfile]
      rfl
    rw [appendEntry_failed hid hp rfl]
    refine h.same_manager (fun _ => ⟨_, rfl, ?_⟩) (fun hfalse => ?_)
    · have hcalm' : n = 0 ∨ atLineStart w.file = true ∧
          n < (Utf8.encode (draft.entry id w.manager.leafId).print).length := by
        have hc := hcalm
        unfold Calm at hc
        dsimp only at hc
        rw [if_pos hm] at hc
        exact hc
      rcases hcalm' with rfl | ⟨hstart, hn⟩
      · rw [take_zero, append_nil, hload]
      · rw [hfile] at hstart
        have hend : bytes.getLast?.all (· = 10) = true := hstart
        obtain ⟨members, hmembers⟩ := hobject
        rw [hmembers] at hn ⊢
        rw [fileEntries_append hend, fileEntries_cut members hn, append_nil, hload]
    · rw [hm] at hfalse
      cases hfalse

theorem Inv.append_fresh (h : w.Inv) (hid : Assoc.get id w.manager.byId = none)
    (hm : w.manager.flushed = false) (hcalm : w.Calm (.append draft id write)) :
    (w.appendEntry draft id write).Inv := by
  obtain ⟨hfile, -, hobjects⟩ := h.fresh hm
  have hpush : (w.manager.push id (draft.entry id w.manager.leafId)).flushed = false := hm
  by_cases hc : (w.manager.push id (draft.entry id w.manager.leafId)).hasConversation = false
  · have hp : w.persisting draft id write = ⟨true, false, none⟩ := by
      unfold persisting persist
      rw [hpush, if_neg Bool.false_ne_true, if_pos hc, hfile]
    rw [appendEntry_returned hp rfl]
    exact h.added (fun htrue => by cases htrue) (fun _ => ⟨rfl, hm, hc⟩)
  · cases write with
    | complete =>
      have hp : w.persisting draft id .complete = ⟨true, true,
          some ((w.manager.fileEntries ++ [draft.entry id w.manager.leafId]).flatMap line)⟩ := by
        unfold persisting persist
        rw [hpush, if_neg Bool.false_ne_true, if_neg hc, hfile]
        rfl
      rw [appendEntry_returned hp rfl]
      refine h.added (fun _ => ⟨_, rfl, ?_⟩) (fun hfalse => by cases hfalse)
      refine fileEntries_lines ?_
      intro e he
      rcases mem_append.mp he with he | he
      · exact hobjects e he
      · rw [mem_singleton.mp he]
        exact ⟨_, rfl⟩
    | refused =>
      have hp : w.persisting draft id .refused = ⟨false, false, none⟩ := by
        unfold persisting persist
        rw [hpush, if_neg Bool.false_ne_true, if_neg hc, hfile]
      rw [appendEntry_failed hid hp rfl]
      refine h.same_manager (fun htrue => ?_) (fun _ => rfl)
      rw [hm] at htrue
      cases htrue
    | torn n =>
      unfold Calm at hcalm
      dsimp only at hcalm
      rw [hm, if_neg Bool.false_ne_true] at hcalm
      exact absurd hcalm hc

theorem Inv.perform (h : w.Inv) {act : Act} (hid : w.Generates act) (hcalm : w.Calm act) :
    (w.perform act).Inv := by
  cases act with
  | append draft id write =>
    cases hm : w.manager.flushed with
    | true => exact h.append_flushed hid hm hcalm
    | false => exact h.append_fresh hid hm hcalm
  | branch branchFromId =>
    change (w.branch branchFromId).Inv
    unfold branch
    split_ifs with hb
    · refine { h with indexed := ⟨h.indexed.byId, ?_⟩ }
      intro id hleaf
      rw [← some.inj hleaf]
      exact hb
    · exact h
  | resetLeaf =>
    refine { h with indexed := ⟨h.indexed.byId, ?_⟩ }
    intro id hleaf
    cases hleaf

theorem Inv.kept (h : w.Inv) : w.Kept := by
  refine ⟨h.entries, ?_, h.parented, fun draft id write hid => manager_failed hid, ?_⟩
  · intro hheld
    have hm : w.manager.flushed = true := by
      cases hm : w.manager.flushed with
      | true => rfl
      | false =>
        rw [hm, (h.fresh hm).2.1] at hheld
        rcases hheld with hheld | hheld <;> cases hheld
    obtain ⟨bytes, hfile, hload⟩ := h.flushed hm
    rw [hfile, loadEntriesFromFile, hload, if_pos h.header]
  · intro draft id
    unfold persisting persist
    split_ifs with hm hc
    · rfl
    · rfl
    · rw [(h.fresh (Bool.eq_false_iff.mpr hm)).1]

end World

/-- Along every run in which nothing is written behind a torn line and the first write leaves no
torn file, memory and file hold what the appends that returned added. -/
theorem transcript_survives {w : World} (h : system.ReachableBy World.Calm w) : w.Kept := by
  obtain ⟨w₀, h₀, hrun⟩ := h
  refine World.Inv.kept (hrun.invariant ?_ ?_)
  · rintro w act w' hi hcalm ⟨hid, rfl⟩
    exact hi.perform hid hcalm
  · rcases h₀ with ⟨id, timestamp, cwd, parentSession, rfl⟩ | ⟨bytes, hheader, -, rfl⟩
    · exact World.newSession_inv id timestamp cwd parentSession
    · exact World.openSession_inv hheader

/-! ### A first write that fails -/

def userMessage : Draft where
  type := ascii "message"
  timestamp := ascii "2026-01-01T00:00:00.000Z"
  leading := []
  rest := [(ascii "message", .object [(ascii "role", .string (ascii "user")),
    (ascii "content", .string (ascii "hi"))])]
  fresh := by decide

def session : World :=
  World.newSession (newHeader (ascii "s") (ascii "2026-01-01T00:00:00.000Z") (ascii "/") none)

def after (acts : List Act) : World :=
  acts.foldl World.perform session

/-- The first write is refused, the next message is written, and a torn line is the last. -/
theorem transcript_survives_refused :
    (after [.append userMessage (ascii "a") .refused, .append userMessage (ascii "b") .complete,
      .append userMessage (ascii "c") (.torn 5)]).Kept := by
  have hrun : system.Along World.Calm World.perform session
      [.append userMessage (ascii "a") .refused, .append userMessage (ascii "b") .complete,
        .append userMessage (ascii "c") (.torn 5)] := by
    refine ⟨⟨rfl, rfl⟩, trivial, ⟨rfl, rfl⟩, ?_, ⟨rfl, rfl⟩, ?_, trivial⟩
    · exact fun hm => by cases hm
    · exact .inr ⟨by decide +kernel, by decide +kernel⟩
  exact transcript_survives ⟨session, .inl ⟨_, _, _, _, rfl⟩, hrun.steps⟩

/-- The first write fails after it created the file: no message can be written after it. -/
theorem torn_first_write_blocks : ¬∀ w, system.Reachable w → w.Kept := by
  intro h
  have hrun : system.Along (fun _ _ => True) World.perform session
      [.append userMessage (ascii "a") (.torn 0)] :=
    ⟨⟨rfl, rfl⟩, trivial, trivial⟩
  have hkept := h _ ⟨session, .inl ⟨_, _, _, _, rfl⟩, hrun.steps⟩
  have hsucceeds := hkept.succeeds userMessage (ascii "b")
  exact absurd hsucceeds (by decide)

end KnightCode.SessionManager
