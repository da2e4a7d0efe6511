import KnightCode.Durable.MemoryDocuments

/-!
# The life of one document

From the deeds of the batches on a document: what its record is, which revisions are kept, and that
a read from the last base on gives the fold of all contents. A base that drops the history before
it drops nothing a later read needs.
-/

namespace KnightCode.Memory

open List Option
variable {revisions : List DocumentRevision} {history : DocumentActions}
  {stored : StoredDocumentState}

open SortedIds State

/-! ### Revisions -/

/-- Revisions from a base on, each delta of the version of the revision before it. -/
inductive Chained : List DocumentRevision → Prop
  | first (version : ℤ) (value : Delta.Json) (seq : ℤ) : Chained [⟨.base version value, seq⟩]
  | base {revisions : List DocumentRevision} (version : ℤ) (value : Delta.Json) (seq : ℤ)
      (h : Chained revisions) : Chained (revisions ++ [⟨.base version value, seq⟩])
  | delta {revisions : List DocumentRevision} {last : DocumentRevision} {version : ℤ}
      (ops : List Delta.Op) (seq : ℤ) (h : Chained revisions)
      (hlast : revisions.getLast? = some last) (hversion : last.content.version = version) :
      Chained (revisions ++ [⟨.delta version ops, seq⟩])

theorem Chained.ne_nil (h : Chained revisions) : revisions ≠ [] := by
  cases h with
  | first => exact cons_ne_nil _ _
  | base | delta => exact append_ne_nil_of_right_ne_nil _ (cons_ne_nil _ _)

theorem snoc_eq_append {init first rest : List DocumentRevision} {revision : DocumentRevision}
    (h : init ++ [revision] = first ++ rest) :
    (∃ rest', init = first ++ rest') ∨ first = init ++ [revision] := by
  obtain rfl | ⟨rest', last, rfl⟩ := rest.eq_nil_or_concat
  · exact .inr (by rw [h, append_nil])
  · rw [concat_eq_append, ← append_assoc] at h
    exact .inl ⟨rest', (append_inj' h rfl).1⟩

theorem Chained.of_append {first rest : List DocumentRevision} (h : Chained revisions)
    (heq : revisions = first ++ rest) (hne : first ≠ []) : Chained first := by
  induction h generalizing rest with
  | first version value seq =>
    obtain ⟨rest', hinit⟩ | hfirst := @snoc_eq_append [] _ _ _ heq
    · exact absurd (append_eq_nil_iff.mp hinit.symm).1 hne
    · rw [hfirst]
      exact .first version value seq
  | base version value seq h ih =>
    obtain ⟨rest', hinit⟩ | rfl := snoc_eq_append heq
    · exact ih hinit
    · exact .base version value seq h
  | delta ops seq h hlast hversion ih =>
    obtain ⟨rest', hinit⟩ | rfl := snoc_eq_append heq
    · exact ih hinit
    · exact .delta ops seq h hlast hversion

theorem lastBase_base (revisions : List DocumentRevision) (version : ℤ) (value : Delta.Json)
    (seq : ℤ) :
    lastBase (revisions ++ [⟨.base version value, seq⟩]) = some (version, value, []) := by
  induction revisions with
  | nil => rfl
  | cons revision revisions ih => rw [cons_append, lastBase, ih]

theorem lastBase_delta (revisions : List DocumentRevision) (version : ℤ) (ops : List Delta.Op)
    (seq : ℤ) : lastBase (revisions ++ [⟨.delta version ops, seq⟩]) =
      (lastBase revisions).map fun found =>
        (found.1, found.2.1, found.2.2 ++ [⟨.delta version ops, seq⟩]) := by
  induction revisions with
  | nil => rfl
  | cons revision revisions ih =>
    rw [cons_append, lastBase, ih, lastBase]
    cases lastBase revisions with
    | some found => rfl
    | none =>
      obtain ⟨content, seq'⟩ := revision
      cases content <;> rfl

/-- The operations of one revision, applied. -/
def applyRevision (value : Delta.Json) (revision : DocumentRevision) :
    Except Delta.DeltaError Delta.Json :=
  match revision.content with
  | .base _ value => .ok value
  | .delta _ ops => Delta.applyOps value ops

theorem foldContents_snoc (contents : List DocumentContent) (content : DocumentContent) :
    foldContents (contents ++ [content]) = foldStep (foldContents contents) content := by
  rw [foldContents, foldl_append]
  rfl

theorem deltasSinceBase_snoc (contents : List DocumentContent) (content : DocumentContent) :
    deltasSinceBase (contents ++ [content]) =
      if content.isDelta then deltasSinceBase contents + 1 else 0 := by
  rw [deltasSinceBase, reverse_append, reverse_singleton, singleton_append]
  split_ifs with h
  · rw [takeWhile_cons_of_pos h, length_cons]
    rfl
  · rw [takeWhile_cons_of_neg h]
    rfl

theorem Chained.fold (h : Chained revisions) :
    ∃ version value deltas, lastBase revisions = some (version, value, deltas) ∧
      (∀ revision ∈ deltas, ∃ ops, revision.content = .delta version ops) ∧
      (∀ last, revisions.getLast? = some last → last.content.version = version) ∧
      deltasSinceBase (revisions.map (·.content)) = deltas.length ∧
      foldContents (revisions.map (·.content)) =
        some ((deltas.foldlM applyRevision value).map (version, ·)) := by
  induction h with
  | first version value seq =>
    refine ⟨version, value, [], rfl, fun _ hmem => (by cases hmem), fun last hlast => ?_, rfl, rfl⟩
    cases hlast
    rfl
  | base version value seq h =>
    refine ⟨version, value, [], lastBase_base _ _ _ _, fun _ hmem => (by cases hmem),
      fun last hlast => ?_, ?_, ?_⟩
    · rw [getLast?_concat] at hlast
      cases hlast
      rfl
    · rw [map_append, map_singleton, deltasSinceBase_snoc]
      rfl
    · rw [map_append, map_singleton, foldContents_snoc]
      rfl
  | @delta revisions last version ops seq h hlast hversion ih =>
    obtain ⟨version', value, deltas, hbase, hdeltas, hversions, hcount, hfold⟩ := ih
    obtain rfl : version' = version := (hversions last hlast).symm.trans hversion
    refine ⟨version', value, deltas ++ [⟨.delta version' ops, seq⟩], ?_, fun revision hmem => ?_,
      fun last' hlast' => ?_, ?_, ?_⟩
    · rw [lastBase_delta, hbase]
      rfl
    · obtain hmem | hmem := mem_append.mp hmem
      · exact hdeltas revision hmem
      · exact ⟨ops, by rw [mem_singleton.mp hmem]⟩
    · rw [getLast?_concat] at hlast'
      cases hlast'
      rfl
    · rw [map_append, map_singleton, deltasSinceBase_snoc, length_append, ← hcount]
      rfl
    · rw [map_append, map_singleton, foldContents_snoc, hfold, foldlM_append]
      cases deltas.foldlM applyRevision value with
      | error e => rfl
      | ok before =>
        cases happly : Delta.applyOps before ops <;>
          simp only [foldStep, applyRevision, happly, Except.map, map_some, bind,
            Except.bind, foldlM_cons, foldlM_nil, pure, Except.pure]

/-! ### Reading -/

variable {deltas : List DocumentRevision}

theorem replay_spec (owned : ℕ → Bool) (id version : ℤ)
    (h : ∀ revision ∈ deltas, ∃ ops, revision.content = .delta version ops) (n : ℕ)
    (value : Delta.Json) :
    (∀ next, deltas.foldlM applyRevision value = .ok next →
        replay owned id version n value deltas = .ok next) ∧
      ∀ error, deltas.foldlM applyRevision value = .error error →
        ∃ error', replay owned id version n value deltas = .error (.delta error') := by
  induction deltas generalizing n value with
  | nil =>
    refine ⟨fun next hnext => ?_, fun error herror => (by cases herror)⟩
    cases hnext
    rfl
  | cons revision deltas ih =>
    obtain ⟨ops, hops⟩ := h revision mem_cons_self
    have hrest := ih fun revision' hmem => h revision' (mem_cons_of_mem _ hmem)
    have hrun : replay owned id version n value (revision :: deltas) =
        ((Delta.applyImmutableFrom owned n value ops).mapError .delta).bind fun next =>
          replay owned id version (n + ops.length) next deltas := by
      rw [replay, hops]
      exact if_neg (not_not.mpr rfl)
    have hfold : (revision :: deltas).foldlM applyRevision value =
        (Delta.applyOps value ops).bind fun next => deltas.foldlM applyRevision next := by
      rw [foldlM_cons, applyRevision, hops]
      rfl
    rw [hrun, hfold]
    cases happly : Delta.applyOps value ops with
    | ok next =>
      rw [(Delta.applyImmutableFrom_eq_ok owned).mpr happly]
      exact hrest (n + ops.length) next
    | error e =>
      refine ⟨fun next hnext => (by cases hnext), fun error herror => ?_⟩
      cases himmutable : Delta.applyImmutableFrom owned n value ops with
      | ok next =>
        rw [(Delta.applyImmutableFrom_eq_ok owned).mp himmutable] at happly
        cases happly
      | error e' => exact ⟨e', rfl⟩

/-! ### A document and what was done to it -/

/-- The revisions some deeds would make if none were dropped. -/
def revisionsOf (history : DocumentActions) : List DocumentRevision :=
  history.filterMap fun deed => deed.2.content.map (⟨·, deed.1⟩)

theorem contents_eq (history : DocumentActions) (point : DocumentPoint) :
    contents history point =
      ((revisionsOf history).filter (point.reaches ·.seq)).map (·.content) := by
  induction history with
  | nil => rfl
  | cons deed history ih =>
    obtain ⟨seq, create, content, retire⟩ := deed
    rw [contents] at ih ⊢
    rw [filter_cons]
    cases content with
    | none =>
      rw [show revisionsOf ((seq, ⟨create, none, retire⟩) :: history) = revisionsOf history from rfl,
        ← ih]
      split_ifs
      · rfl
      · rfl
    | some content =>
      rw [show revisionsOf ((seq, ⟨create, some content, retire⟩) :: history) =
        ⟨content, seq⟩ :: revisionsOf history from rfl, filter_cons]
      split_ifs
      · rw [map_cons, ← ih]
        rfl
      · exact ih

structure Lived (history : DocumentActions) (stored : StoredDocumentState) : Prop where
  record : incarnation history = some stored.record
  seqs : (history.map (·.1)).Pairwise (· < ·)
  chained : Chained (revisionsOf history)
  first : ∀ revision, (revisionsOf history).head? = some revision →
    revision.seq = stored.record.createdAt
  kept : stored.record.isCurrentOnly = false → stored.revisions = revisionsOf history
  last : stored.record.retiredAt = none →
    lastBase stored.revisions = lastBase (revisionsOf history) ∧
      stored.revisions.getLast? = (revisionsOf history).getLast?

theorem Lived.create (seq : ℤ) (create : DocumentCreate) (version : ℤ) (value : Delta.Json)
    (retire : Bool) :
    ∃ stored, actOn seq ⟨some create, some (.base version value), retire⟩ none = some stored ∧
      stored.record = ⟨create, seq, if retire then some seq else none⟩ ∧
      Lived [(seq, ⟨some create, some (.base version value), retire⟩)] stored := by
  refine ⟨_, rfl, ?_, ⟨?_, pairwise_singleton _ _, .first version value seq, fun r hr => ?_,
    fun hkept => ?_, fun hnone => ?_⟩⟩
  · cases retire <;> rfl
  · cases retire <;> rfl
  · cases hr
    cases retire <;> rfl
  · cases retire with
    | false => rfl
    | true => exact if_neg (ne_of_eq_of_ne hkept Bool.false_ne_true)
  · cases retire with
    | false => exact ⟨rfl, rfl⟩
    | true => cases hnone

theorem incarnation_snoc {record : DocumentRecord} (h : incarnation history = some record)
    (hnone : record.retiredAt = none) (seq : ℤ) (action : DocumentAction) :
    incarnation (history ++ [(seq, action)]) =
      some { record with retiredAt := if action.retire then some seq else none } := by
  rw [incarnation] at h ⊢
  cases hcreated : history.findSome? fun deed => deed.2.create.map (deed.1, ·) with
  | none =>
    rw [hcreated] at h
    cases h
  | some created =>
    rw [hcreated] at h
    cases h
    have hretired : (history.findSome? fun deed => if deed.2.retire then some deed.1 else none) =
        none := hnone
    obtain ⟨create, content, retire⟩ := action
    rw [findSome?_append, findSome?_append, hcreated, hretired]
    cases retire <;> rfl

theorem revisionsOf_snoc (history : DocumentActions) (seq : ℤ) (action : DocumentAction) :
    revisionsOf (history ++ [(seq, action)]) =
      revisionsOf history ++ (action.content.map (⟨·, seq⟩ : _ → DocumentRevision)).toList := by
  rw [revisionsOf, filterMap_append]
  cases hcontent : action.content <;> simp [revisionsOf, hcontent]

variable {action : DocumentAction}

theorem Lived.revise (h : Lived history stored) (hnone : stored.record.retiredAt = none) (seq : ℤ)
    (hcreate : action.create = none)
    (hversion : ∀ version ops, action.content = some (.delta version ops) →
      ∃ last, stored.revisions.getLast? = some last ∧ last.content.version = version) :
    ∃ revisions, reviseBy seq action (some stored) = some ⟨stored.record, revisions⟩ ∧
      Chained (revisionsOf (history ++ [(seq, action)])) ∧
      (stored.record.isCurrentOnly = false → revisions = revisionsOf (history ++ [(seq, action)])) ∧
      lastBase revisions = lastBase (revisionsOf (history ++ [(seq, action)])) ∧
      revisions.getLast? = (revisionsOf (history ++ [(seq, action)])).getLast? := by
  obtain ⟨create, content, retire⟩ := action
  obtain rfl : create = none := hcreate
  rw [revisionsOf_snoc]
  obtain ⟨hbase, hlast⟩ := h.last hnone
  cases content with
  | none =>
    refine ⟨stored.revisions, rfl, ?_, fun hkept => ?_, ?_, ?_⟩ <;>
      rw [map_none, toList_none, append_nil]
    · exact h.chained
    · exact h.kept hkept
    · exact hbase
    · exact hlast
  | some content =>
    rw [map_some, toList_some]
    cases content with
    | base version value =>
      refine ⟨_, rfl, .base version value seq h.chained, fun hkept => ?_, ?_, ?_⟩
      · rw [if_neg (ne_of_eq_of_ne hkept Bool.false_ne_true), h.kept hkept]
      · rw [lastBase_base]
        split_ifs
        · rfl
        · exact lastBase_base _ _ _ _
      · rw [getLast?_concat]
        split_ifs
        · rfl
        · exact getLast?_concat
    | delta version ops =>
      obtain ⟨last, hstored, hlastVersion⟩ := hversion version ops rfl
      refine ⟨_, rfl, .delta ops seq h.chained (hlast.symm.trans hstored) hlastVersion,
        fun hkept => ?_, ?_, ?_⟩
      · rw [h.kept hkept]
      · rw [lastBase_delta, lastBase_delta, hbase]
      · rw [getLast?_concat, getLast?_concat]

theorem Lived.next (h : Lived history stored) (hnone : stored.record.retiredAt = none) {seq : ℤ}
    (hseq : ∀ deed ∈ history, deed.1 < seq) (hcreate : action.create = none)
    (hversion : ∀ version ops, action.content = some (.delta version ops) →
      ∃ last, stored.revisions.getLast? = some last ∧ last.content.version = version) :
    ∃ stored', actOn seq action (some stored) = some stored' ∧
      stored'.record =
        { stored.record with retiredAt := if action.retire then some seq else none } ∧
      Lived (history ++ [(seq, action)]) stored' := by
  obtain ⟨revisions, hrevise, hchained, hkept, hbase, hlast⟩ := h.revise hnone seq hcreate hversion
  have hrecord : (retireBy seq action ⟨stored.record, revisions⟩).record =
      { stored.record with retiredAt := if action.retire then some seq else none } := by
    rw [retireBy, hcreate]
    cases action.retire with
    | false => exact congrArg (DocumentRecord.mk stored.record.toDocumentCreate _) hnone
    | true => rfl
  have honly : (retireBy seq action ⟨stored.record, revisions⟩).record.isCurrentOnly =
      stored.record.isCurrentOnly := by rw [hrecord]
  refine ⟨retireBy seq action ⟨stored.record, revisions⟩, by rw [actOn, hrevise]; rfl, hrecord, ?_,
    ?_, hchained, fun revision hhead => ?_, fun hcurrent => ?_, fun hunretired => ?_⟩
  · rw [hrecord]
    exact incarnation_snoc h.record hnone seq action
  · rw [map_append, map_singleton, pairwise_append]
    refine ⟨h.seqs, pairwise_singleton _ _, fun seq' hseq' seq'' hmem => ?_⟩
    obtain ⟨deed, hdeed, rfl⟩ := mem_map.mp hseq'
    rw [mem_singleton.mp hmem]
    exact hseq deed hdeed
  · rw [hrecord]
    refine h.first revision ?_
    rw [revisionsOf_snoc] at hhead
    obtain ⟨revision', rest, hrevisions⟩ := exists_cons_of_ne_nil h.chained.ne_nil
    rw [hrevisions] at hhead ⊢
    exact hhead
  · rw [honly] at hcurrent
    rw [← hkept hcurrent]
    refine if_neg ?_
    show ¬ (action.retire && DocumentCreate.isCurrentOnly
      (retireBy seq action ⟨stored.record, revisions⟩).record.toDocumentCreate) = true
    rw [honly, hcurrent, Bool.and_false]
    exact Bool.false_ne_true
  · have hretire : action.retire = false := by
      rw [hrecord] at hunretired
      cases hr : action.retire with
      | false => rfl
      | true =>
        rw [hr] at hunretired
        cases hunretired
    have hrevisions : (retireBy seq action ⟨stored.record, revisions⟩).revisions = revisions := by
      rw [retireBy, hretire]
      rfl
    rw [hrevisions]
    exact ⟨hbase, hlast⟩

/-! ### Being alive -/

theorem findSome?_filter_seq {α β : Type} {l : List (ℤ × α)} {g : ℤ × α → Option β} {seq : β → ℤ}
    (hg : ∀ a b, g a = some b → seq b = a.1) (hl : (l.map (·.1)).Pairwise (· < ·)) (at' : ℤ) :
    (l.filter (·.1 ≤ at')).findSome? g = (l.findSome? g).filter (seq · ≤ at') := by
  induction l with
  | nil => rfl
  | cons a l ih =>
    obtain ⟨hfirst, hrest⟩ := pairwise_cons.mp hl
    have hnext := ih hrest
    by_cases ha : a.1 ≤ at'
    · rw [filter_cons, if_pos (decide_eq_true ha), findSome?_cons, findSome?_cons]
      cases hga : g a with
      | none => exact hnext
      | some b =>
        rw [filter_some, if_pos (decide_eq_true ((hg a b hga).le.trans ha))]
    · have hlater : ∀ b ∈ a :: l, at' < b.1 := by
        intro b hmem
        obtain rfl | hmem := mem_cons.mp hmem
        · exact not_le.mp ha
        · exact (not_le.mp ha).trans (hfirst b.1 (mem_map_of_mem hmem))
      have hnone : (a :: l).filter (·.1 ≤ at') = [] := filter_eq_nil_iff.mpr fun b hmem hle =>
        not_le.mpr (hlater b hmem) (of_decide_eq_true hle)
      rw [hnone]
      refine (filter_eq_none_iff.mpr fun b hb hle => ?_).symm
      obtain ⟨c, hmem, hc⟩ := exists_of_findSome?_eq_some hb
      have hlt := hlater c hmem
      rw [← hg c b hc] at hlt
      exact not_le.mpr hlt (of_decide_eq_true hle)

theorem Lived.isAliveAt_iff (h : Lived history stored) (point : DocumentPoint) :
    stored.record.isAliveAt point = true ↔ Alive history point := by
  have hrecord := h.record
  cases point with
  | current =>
    have hall : history.filter (DocumentPoint.current.reaches ·.1) = history :=
      filter_eq_self.mpr fun _ _ => rfl
    rw [Alive, hall, hrecord]
    constructor
    · intro hnone
      exact ⟨_, rfl, isNone_iff_eq_none.mp hnone⟩
    · rintro ⟨_, ⟨⟩, hnone⟩
      exact isNone_iff_eq_none.mpr hnone
  | seq seq =>
    rw [Alive, incarnation]
    rw [incarnation] at hrecord
    have hcreated := @findSome?_filter_seq _ _ history
      (fun deed => deed.2.create.map (deed.1, ·)) (·.1) (by
        intro deed created hdeed
        obtain ⟨create, -, rfl⟩ := map_eq_some_iff.mp hdeed
        rfl) h.seqs seq
    have hretired := @findSome?_filter_seq _ _ history
      (fun deed => if deed.2.retire then some deed.1 else none) id (by
        intro deed retired hdeed
        split_ifs at hdeed
        exact (Option.some.inj hdeed).symm) h.seqs seq
    obtain ⟨created, hfound, heq⟩ := map_eq_some_iff.mp hrecord
    rw [show history.filter ((DocumentPoint.seq seq).reaches ·.1) = history.filter (·.1 ≤ seq)
      from rfl, hcreated, hretired, hfound, ← heq]
    show (decide (created.1 ≤ seq) && Option.all _ _) = true ↔ _
    rw [Bool.and_eq_true]
    by_cases hle : created.1 ≤ seq
    · rw [filter_some, if_pos (decide_eq_true hle)]
      cases history.findSome? fun deed => if deed.2.retire then some deed.1 else none with
      | none => exact ⟨fun _ => ⟨_, rfl, rfl⟩, fun _ => ⟨decide_eq_true hle, rfl⟩⟩
      | some retired =>
        constructor
        · rintro ⟨-, hlt⟩
          refine ⟨_, rfl, ?_⟩
          rw [filter_some, if_neg]
          exact fun hretired => not_le.mpr (of_decide_eq_true hlt) (of_decide_eq_true hretired)
        · rintro ⟨_, ⟨⟩, hnone⟩
          rw [filter_some] at hnone
          refine ⟨decide_eq_true hle, decide_eq_true (not_le.mp fun hle' => ?_)⟩
          exact absurd ((if_pos (decide_eq_true hle')).symm.trans hnone) (some_ne_none _)
    · rw [filter_some, if_neg fun hle' => hle (of_decide_eq_true hle')]
      exact ⟨fun hand => absurd (of_decide_eq_true hand.1) hle, fun ⟨_, hnone, _⟩ => by cases hnone⟩

/-! ### Content -/

theorem materializeDocument_eq {ρ : Type} {s : State ρ} {owned : ℕ → Bool} {id : ℤ}
    {point : DocumentPoint} (hget : Assoc.get id s.documents = some stored)
    (hpast : ∀ seq, point = .seq seq → stored.record.isCurrentOnly = false)
    (halive : stored.record.isAliveAt point = true) {version : ℤ} {value : Delta.Json}
    (hbase : lastBase (stored.revisions.filter (point.reaches ·.seq)) =
      some (version, value, deltas)) :
    s.materializeDocument owned id point = (replay owned id version 0 value deltas).map fun value =>
      some ⟨stored.record, version, value, deltas.length⟩ := by
  unfold materializeDocument
  rw [hget]
  dsimp only
  cases point with
  | current =>
    refine (if_neg Bool.false_ne_true).trans ((if_neg (not_not.mpr halive)).trans ?_)
    rw [show stored.revisions.filter (fun revision =>
      (none : Option ℤ).all fun seq => decide (revision.seq ≤ seq)) =
        stored.revisions.filter (DocumentPoint.current.reaches ·.seq) from rfl, hbase]
    rfl
  | seq seq =>
    have hkept : ¬ (true && stored.record.isCurrentOnly) = true := by
      rw [hpast seq rfl]
      exact Bool.false_ne_true
    refine (if_neg hkept).trans ((if_neg (not_not.mpr halive)).trans ?_)
    rw [show stored.revisions.filter (fun revision =>
      (some seq).all fun seq => decide (revision.seq ≤ seq)) =
        stored.revisions.filter ((DocumentPoint.seq seq).reaches ·.seq) from rfl, hbase]
    rfl

theorem Chained.readsFold (h : Chained revisions) (owned : ℕ → Bool) (id : ℤ)
    (record : DocumentRecord) :
    ∃ version value deltas, lastBase revisions = some (version, value, deltas) ∧
      ReadsFold record (revisions.map (·.content))
        ((replay owned id version 0 value deltas).map fun value =>
          some ⟨record, version, value, deltas.length⟩) := by
  obtain ⟨version, value, deltas, hbase, hdeltas, -, hcount, hfold⟩ := h.fold
  refine ⟨version, value, deltas, hbase, ?_⟩
  obtain ⟨hok, herror⟩ := replay_spec owned id version hdeltas 0 value
  rw [ReadsFold, hfold, hcount]
  cases hrun : deltas.foldlM applyRevision value with
  | ok next =>
    rw [hok next hrun]
    rfl
  | error e =>
    obtain ⟨error, hreplay⟩ := herror e hrun
    rw [hreplay]
    exact ⟨error, rfl⟩

theorem Lived.sorted (h : Lived history stored) :
    (revisionsOf history).Pairwise (·.seq < ·.seq) := by
  rw [revisionsOf, pairwise_filterMap]
  refine (pairwise_map.mp h.seqs).imp fun hlt revision hrevision revision' hrevision' => ?_
  obtain ⟨content, -, rfl⟩ := map_eq_some_iff.mp hrevision
  obtain ⟨content', -, rfl⟩ := map_eq_some_iff.mp hrevision'
  exact hlt

theorem Lived.chained_past (h : Lived history stored) {seq : ℤ}
    (hseq : stored.record.createdAt ≤ seq) :
    Chained ((revisionsOf history).filter ((DocumentPoint.seq seq).reaches ·.seq)) := by
  have hprefix := takeWhile_eq_filter (p := fun revision : DocumentRevision =>
    (DocumentPoint.seq seq).reaches revision.seq) (h.sorted.imp fun hlt hreach =>
      decide_eq_true ((hlt.le).trans (of_decide_eq_true hreach)))
  rw [← hprefix]
  obtain ⟨revision, rest, hrevisions⟩ := exists_cons_of_ne_nil h.chained.ne_nil
  refine h.chained.of_append (takeWhile_append_dropWhile).symm ?_
  have hfirst : (DocumentPoint.seq seq).reaches revision.seq = true :=
    decide_eq_true ((h.first revision (by rw [hrevisions]; rfl)).le.trans hseq)
  rw [hrevisions, takeWhile_cons, if_pos hfirst]
  exact cons_ne_nil _ _

/-- A document alive at a point reads there as the fold of the contents given up to it, where the
point is the present or the document retains its history. -/
theorem Lived.read {ρ : Type} {s : State ρ} (h : Lived history stored) (owned : ℕ → Bool) {id : ℤ}
    (hget : Assoc.get id s.documents = some stored) {point : DocumentPoint}
    (halive : stored.record.isAliveAt point = true)
    (hpast : ∀ seq, point = .seq seq → stored.record.isCurrentOnly = false) :
    ReadsFold stored.record (contents history point) (s.materializeDocument owned id point) := by
  rw [contents_eq]
  cases point with
  | current =>
    obtain ⟨version, value, deltas, hbase, hreads⟩ := h.chained.readsFold owned id stored.record
    have hall : ∀ revisions : List DocumentRevision,
        revisions.filter (DocumentPoint.current.reaches ·.seq) = revisions :=
      fun revisions => filter_eq_self.mpr fun _ _ => rfl
    rw [hall, materializeDocument_eq hget hpast halive (by
      rw [hall, (h.last (isNone_iff_eq_none.mp halive)).1]; exact hbase)]
    exact hreads
  | seq seq =>
    have hkept := h.kept (hpast seq rfl)
    have hcreated : stored.record.createdAt ≤ seq :=
      of_decide_eq_true (Bool.and_eq_true_iff.mp halive).1
    obtain ⟨version, value, deltas, hbase, hreads⟩ :=
      (h.chained_past hcreated).readsFold owned id stored.record
    rw [materializeDocument_eq hget hpast halive (by rw [hkept]; exact hbase)]
    exact hreads

end KnightCode.Memory
