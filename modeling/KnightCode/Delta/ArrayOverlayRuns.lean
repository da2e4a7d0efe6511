import KnightCode.Delta.ArrayOverlayRanges
import KnightCode.Library.System

/-!
# Arrays under edit, in every run

The mutators that reorder a sequence rebuild its tree from pieces: a reversal turns every piece
around, a sort has a piece for each run of elements that stay together. A comparator may edit the
array it sorts, and elements then come back that it moved: what occurs twice gets a source of its
own, so that in every state between two steps no element occurs twice.
-/

namespace KnightCode.Delta

open List Option

namespace ArrayOverlay

variable {α : Type} {base : List α} {o o' : ArrayOverlay α}
variable {pieces : List Piece} {started : SortStart α}

/-! ### Whole sequences -/

/-- What exchanging the whole sequence leaves. -/
structure Rebuilt (base : List α) (o o' : ArrayOverlay α) (sequence : List Entry) : Prop where
  shaped : Shaped base o'
  entries : o'.entries = sequence
  overrides : o'.overrides = o.overrides
  sources : o'.sources = o.sources
  generation : o'.generation = o.generation + 1

theorem Shaped.replaceAllPieces (h : Shaped base o) (hvalid : ∀ p ∈ pieces, p.Valid)
    (hknown : ∀ entry ∈ pieces.flatMap Piece.entries, o.Known base entry) :
    Rebuilt base o (o.replaceAllPieces pieces) (pieces.flatMap Piece.entries) := by
  obtain ⟨hwell, hentries⟩ := PieceTree.treeFromPieces_spec o.seed hvalid
  have hgrown : Grown o (o.replaceAllPieces pieces) := .of_sources rfl
  refine ⟨h.of_grown hgrown rfl hwell fun entry hmem => ?_, hentries, rfl, rfl, rfl⟩
  apply hgrown.known
  apply hknown
  rw [← hentries]
  exact hmem

theorem reversedPiece_spec {p : Piece} (h : p.Valid) :
    (reversedPiece p).entries = p.entries.reverse ∧ (reversedPiece p).Valid := by
  obtain ⟨kind, start, length, step⟩ := p
  have hpos := h.pos
  have hfits := h.fits
  dsimp only at hpos hfits
  have hlength : (reversedPiece ⟨kind, start, length, step⟩).length = length := by cases step <;> rfl
  constructor
  · apply ext_getElem
    · simp [hlength]
    · intro i hi _
      have hlt : i < length := by simpa [hlength] using hi
      cases step
      all_goals
        simp only [reversedPiece, Piece.entries, Piece.indices, PieceStep.from, getElem_map,
          getElem_range, getElem_reverse, length_map, length_range]
        congr 1
      · omega
      · have hle := hfits rfl
        omega
  · cases step with
    | forward => exact ⟨hpos, fun _ => by dsimp only [reversedPiece]; omega⟩
    | backward => exact ⟨hpos, fun h => by cases h⟩

theorem reversed_entries (h : ∀ p ∈ pieces, p.Valid) :
    (pieces.reverse.map reversedPiece).flatMap Piece.entries =
      (pieces.flatMap Piece.entries).reverse := by
  rw [reverse_flatMap, flatMap_map]
  apply flatMap_congr
  intro p hmem
  exact (reversedPiece_spec (h p (mem_reverse.mp hmem))).1

/-- The part of a step's effect that a running sort depends on. -/
structure Progress (o o' : ArrayOverlay α) : Prop where
  grown : Grown o o'
  generation : o.generation ≤ o'.generation
  entries : o'.generation = o.generation → o'.entries = o.entries

theorem Sound.reverse (h : Sound base o) :
    Sound base o.reverse ∧ Progress o o.reverse ∧
      o.reverse.values base = (o.values base).reverse := by
  rw [ArrayOverlay.reverse]
  split_ifs with hshort
  · have hlength : (o.values base).length < 2 := by rw [h.length_values]; exact hshort
    refine ⟨h, ⟨.refl o, le_rfl, fun _ => rfl⟩, ?_⟩
    match o.values base, hlength with
    | [], _ => rfl
    | [_], _ => rfl
  · have hvalid := h.wellFormed.valid
    have hreversed := reversed_entries hvalid
    have hturned : ∀ p ∈ o.piecesOf.reverse.map reversedPiece, p.Valid := by
      intro p hmem
      obtain ⟨q, hq, rfl⟩ := mem_map.mp hmem
      exact (reversedPiece_spec (hvalid q (mem_reverse.mp hq))).2
    have hrebuilt := h.toShaped.replaceAllPieces hturned
      (by
        intro entry hmem
        rw [piecesOf, hreversed, mem_reverse] at hmem
        exact h.known entry hmem)
    generalize o.replaceAllPieces (o.piecesOf.reverse.map reversedPiece) = o' at *
    have hentries : o'.entries = o.entries.reverse := hrebuilt.entries.trans hreversed
    have hgrown : Grown o o' := .of_sources hrebuilt.sources
    refine ⟨⟨hrebuilt.shaped, ?_⟩, ⟨hgrown, ?_, fun heq => ?_⟩, ?_⟩
    · rw [hentries]
      exact nodup_reverse.mpr h.nodup
    · rw [hrebuilt.generation]
      exact Nat.le_succ _
    · rw [hrebuilt.generation] at heq
      exact absurd heq (Nat.succ_ne_self _)
    · rw [values, hentries, map_reverse,
        hgrown.map_entryValueAt hrebuilt.overrides h.known]
      rfl

/-! ### Values written over elements -/

theorem Sound.writeEntry (h : Sound base o) (index : ℕ) (value : Option α) :
    Sound base (o.writeEntry index value) ∧ Progress o (o.writeEntry index value) := by
  rw [ArrayOverlay.writeEntry]
  split
  · next entry hentry =>
    have hmem := mem_of_getElem? hentry
    refine ⟨⟨⟨h.wellFormed, h.known, fun other hsome => ?_⟩, h.nodup⟩,
      ⟨.of_sources rfl, le_rfl, fun _ => rfl⟩⟩
    by_cases heq : other = entry
    · rw [heq]
      exact h.known entry hmem
    · apply h.overridden other
      dsimp only at hsome
      rwa [Function.update_of_ne heq] at hsome
  · exact ⟨h, .refl o, le_rfl, fun _ => rfl⟩

/-! ### Orders -/

theorem single_valid (entry : Entry) : (⟨entry.1, entry.2, 1, .forward⟩ : Piece).Valid :=
  ⟨one_pos, nofun⟩

theorem single_entries (entry : Entry) :
    (⟨entry.1, entry.2, 1, .forward⟩ : Piece).entries = [entry] :=
  Piece.entries_single rfl

/-- One more element at the end of a list of pieces, the last one first. -/
structure Lengthened (pieces pieces' : List Piece) (added : List Entry) : Prop where
  entries : pieces'.reverse.flatMap Piece.entries =
    pieces.reverse.flatMap Piece.entries ++ added
  valid : ∀ p ∈ pieces', p.Valid

theorem Lengthened.push (h : ∀ p ∈ pieces, p.Valid) {piece : Piece} (hpiece : piece.Valid) :
    Lengthened pieces (piece :: pieces) piece.entries := by
  refine ⟨?_, forall_mem_cons.mpr ⟨hpiece, h⟩⟩
  rw [reverse_cons, flatMap_append, flatMap_singleton]

theorem Lengthened.merge {previous merged : Piece} {rest : List Piece} {added : List Entry}
    (h : ∀ p ∈ previous :: rest, p.Valid) (hentries : merged.entries = previous.entries ++ added)
    (hmerged : merged.Valid) : Lengthened (previous :: rest) (merged :: rest) added := by
  refine ⟨?_, forall_mem_cons.mpr ⟨hmerged, (forall_mem_cons.mp h).2⟩⟩
  rw [reverse_cons, reverse_cons, flatMap_append, flatMap_append,
    flatMap_singleton, flatMap_singleton, hentries, append_assoc]

theorem Lengthened.trans {pieces₁ pieces₂ pieces₃ : List Piece} {added added' : List Entry}
    (h : Lengthened pieces₁ pieces₂ added) (h' : Lengthened pieces₂ pieces₃ added') :
    Lengthened pieces₁ pieces₃ (added ++ added') :=
  ⟨by rw [h'.entries, h.entries, append_assoc], h'.valid⟩

theorem addToken_lengthened (h : ∀ p ∈ pieces, p.Valid) (entry : Entry) :
    Lengthened pieces (addToken pieces entry) [entry] := by
  have hpush := Lengthened.push h (single_valid entry)
  rw [single_entries] at hpush
  cases pieces with
  | nil => exact hpush
  | cons previous rest =>
    have hprevious : previous.Valid := h previous mem_cons_self
    rw [addToken]
    split_ifs with hkind hone hadjacent hfollows
    · have hentries := hadjacent.entries_append hkind hone rfl
      rw [single_entries] at hentries
      exact .merge h hentries hadjacent.valid
    · exact hpush
    · -- a single element goes either way, so it continues a run in the run's direction
      have hsame : (⟨entry.1, entry.2, 1, previous.step⟩ : Piece).entries = [entry] :=
        Piece.entries_single rfl
      have hcontinues : previous.Follows ⟨entry.1, entry.2, 1, previous.step⟩ := hfollows
      have hentries := hcontinues.entries_append hkind rfl
      have hvalid := hcontinues.valid hprevious
        ⟨one_pos, fun _ => Nat.le_add_left 1 entry.2⟩ rfl
      rw [hsame] at hentries
      exact .merge h hentries hvalid
    · exact hpush
    · exact hpush

theorem foldl_addToken_lengthened (h : ∀ p ∈ pieces, p.Valid) (order : List Entry) :
    Lengthened pieces (order.foldl addToken pieces) order := by
  induction order generalizing pieces with
  | nil => exact ⟨(append_nil _).symm, h⟩
  | cons entry order ih =>
    have hfirst := addToken_lengthened h entry
    exact hfirst.trans (ih hfirst.valid)

theorem piecesFromSortOrder_spec (order : List Entry) :
    (piecesFromSortOrder order).flatMap Piece.entries = order ∧
      ∀ p ∈ piecesFromSortOrder order, p.Valid := by
  have hnone : ∀ p ∈ ([] : List Piece), p.Valid := nofun
  have h := foldl_addToken_lengthened hnone order
  refine ⟨h.entries.trans (nil_append _), fun p hmem => ?_⟩
  exact h.valid p (mem_reverse.mp hmem)

theorem appendMergedPiece_lengthened (h : ∀ p ∈ pieces, p.Valid) {piece : Piece}
    (hpiece : piece.Valid) : Lengthened pieces (appendMergedPiece pieces piece) piece.entries := by
  cases pieces with
  | nil => exact .push h hpiece
  | cons previous rest =>
    have hprevious : previous.Valid := h previous mem_cons_self
    rw [appendMergedPiece]
    split
    · next merged hmerged =>
      obtain ⟨hentries, hvalid⟩ := Piece.merged_spec hmerged hprevious hpiece
      exact .merge h hentries hvalid
    · exact .push h hpiece

theorem foldl_appendMergedPiece_lengthened {added : List Piece} (h : ∀ p ∈ pieces, p.Valid)
    (hadded : ∀ p ∈ added, p.Valid) :
    Lengthened pieces (added.foldl appendMergedPiece pieces) (added.flatMap Piece.entries) := by
  induction added generalizing pieces with
  | nil => exact ⟨(append_nil _).symm, h⟩
  | cons piece added ih =>
    obtain ⟨hpiece, hadded⟩ := forall_mem_cons.mp hadded
    have hfirst := appendMergedPiece_lengthened h hpiece
    rw [flatMap_cons]
    exact hfirst.trans (ih hfirst.valid hadded)

/-! ### Elements that occur twice -/

/-- What the search for elements that occur twice makes of the rest of a sequence. -/
structure Deduplicated (base : List α) (o o' : ArrayOverlay α) (seen rest : List Entry)
    (added : List Entry) (duplicated : Bool) : Prop where
  root : o'.root = o.root
  overrides : o'.overrides = o.overrides
  generation : o'.generation = o.generation
  grown : Grown o o'
  known : ∀ entry ∈ added, o'.Known base entry
  origin : ∀ entry ∈ added, (entry ∈ rest ∧ entry ∉ seen) ∨ ¬ o.Known base entry
  nodup : added.Nodup
  values : added.map (o'.entryValueAt base) = rest.map (o.entryValueAt base)
  unchanged : duplicated = false → o' = o ∧ added = rest

variable {seen rest added : List Entry}

theorem Deduplicated.cons {entry : Entry} {duplicated : Bool}
    (h : Deduplicated base o o' (entry :: seen) rest added duplicated) (hentry : o.Known base entry)
    (hseen : entry ∉ seen) :
    Deduplicated base o o' seen (entry :: rest) (entry :: added) duplicated := by
  refine ⟨h.root, h.overrides, h.generation, h.grown, ?_, ?_, ?_, ?_, fun hfalse => ?_⟩
  · exact forall_mem_cons.mpr ⟨h.grown.known hentry, h.known⟩
  · refine forall_mem_cons.mpr ⟨.inl ⟨mem_cons_self, hseen⟩, fun other hmem => ?_⟩
    rcases h.origin other hmem with ⟨hrest, hnew⟩ | hfresh
    · exact .inl ⟨mem_cons_of_mem _ hrest, fun hold => hnew (mem_cons_of_mem _ hold)⟩
    · exact .inr hfresh
  · refine nodup_cons.mpr ⟨fun hmem => ?_, h.nodup⟩
    rcases h.origin entry hmem with ⟨-, hnew⟩ | hfresh
    · exact hnew mem_cons_self
    · exact hfresh hentry
  · rw [map_cons, map_cons, h.values, h.grown.entryValueAt h.overrides hentry]
  · obtain ⟨heq, hadded⟩ := h.unchanged hfalse
    exact ⟨heq, by rw [hadded]⟩

theorem Deduplicated.copy {o₁ : ArrayOverlay α} {entry : Entry} {inserted : List Piece} {value : α}
    {duplicated : Bool} (hshaped : Shaped base o)
    (h : Deduplicated base o₁ o' seen rest added duplicated)
    (hinserted : Inserted base o o₁ inserted [value])
    (hvalue : o.entryValueAt base entry = some value) (hrest : ∀ entry ∈ rest, o.Known base entry) :
    Deduplicated base o o' seen (entry :: rest) (inserted.flatMap Piece.entries ++ added) true := by
  have hover : o'.overrides = o.overrides := h.overrides.trans hinserted.overrides
  refine ⟨h.root.trans hinserted.root, hover, h.generation.trans hinserted.generation,
    hinserted.grown.trans h.grown, fun other hmem => ?_, fun other hmem => ?_, ?_, ?_, nofun⟩
  · rcases mem_append.mp hmem with hmem | hmem
    · exact h.grown.known (hinserted.known other hmem)
    · exact h.known other hmem
  · rcases mem_append.mp hmem with hmem | hmem
    · exact .inr (hinserted.fresh other hmem)
    · rcases h.origin other hmem with ⟨hold, hnew⟩ | hfresh
      · exact .inl ⟨mem_cons_of_mem _ hold, hnew⟩
      · exact .inr fun hknown => hfresh (hinserted.grown.known hknown)
  · refine nodup_append'.mpr ⟨hinserted.nodup, h.nodup, fun other hmem hadded => ?_⟩
    rcases h.origin other hadded with ⟨hold, -⟩ | hfresh
    · exact hinserted.fresh other hmem (hrest other hold)
    · exact hfresh (hinserted.known other hmem)
  · have hcopies : (inserted.flatMap Piece.entries).map (o'.entryValueAt base) = [some value] := by
      rw [map_entryValueAt_fresh]
      · exact (map_congr_left fun other hmem =>
          h.grown.sourceValue (hinserted.known other hmem)).trans hinserted.values
      · intro other hmem
        rw [hover]
        exact hshaped.overrides_none (hinserted.fresh other hmem)
    rw [map_append, hcopies, h.values,
      hinserted.grown.map_entryValueAt hinserted.overrides hrest, map_cons, hvalue]
    rfl

theorem deduplicate_spec (h : Shaped base o) {seen rest : List Entry} {next : List Piece}
    (hrest : ∀ entry ∈ rest, o.Known base entry) (hnext : ∀ p ∈ next, p.Valid) :
    ∃ o' pieces duplicated added, deduplicate base o seen rest next = (o', pieces, duplicated) ∧
      Deduplicated base o o' seen rest added duplicated ∧
      (∀ p ∈ pieces, p.Valid) ∧
      pieces.flatMap Piece.entries = next.reverse.flatMap Piece.entries ++ added := by
  induction rest generalizing o seen next with
  | nil =>
    refine ⟨o, next.reverse, false, [], rfl, ⟨rfl, rfl, rfl, .refl o, nofun, nofun, nodup_nil,
      rfl, fun _ => ⟨rfl, rfl⟩⟩, ?_, (append_nil _).symm⟩
    intro p hmem
    exact hnext p (mem_reverse.mp hmem)
  | cons entry rest ih =>
    obtain ⟨hentry, hrest⟩ := forall_mem_cons.mp hrest
    rw [deduplicate]
    split_ifs with hseen
    · obtain ⟨value, hvalue⟩ : ∃ value, o.entryValueAt base entry = some value := by
        rw [← isSome_iff_exists, entryValueAt, isSome_or, Bool.or_eq_true]
        exact .inr hentry
      have hinserted : Inserted base o (o.insertPiece [value] 0).1 (o.insertPiece [value] 0).2
          [value] := insertPiece_inserted o (Nat.zero_le 1)
      rw [hvalue, toList_some]
      generalize o.insertPiece [value] 0 = pair at hinserted ⊢
      obtain ⟨o₁, inserted⟩ := pair
      dsimp only at hinserted ⊢
      have hmore := foldl_appendMergedPiece_lengthened hnext hinserted.valid
      obtain ⟨o', pieces, duplicated, added, heq, hspec, hvalid, hentries⟩ :=
        @ih o₁ (h.of_inserted hinserted) seen _
          (fun other hmem => hinserted.grown.known (hrest other hmem)) hmore.valid
      rw [heq]
      refine ⟨o', pieces, true, inserted.flatMap Piece.entries ++ added, rfl,
        hspec.copy h hinserted hvalue hrest, hvalid, ?_⟩
      rw [hentries, hmore.entries, append_assoc]
    · have hmore := appendMergedPiece_lengthened hnext (single_valid entry)
      obtain ⟨o', pieces, duplicated, added, heq, hspec, hvalid, hentries⟩ :=
        @ih o h (entry :: seen) _ hrest hmore.valid
      refine ⟨o', pieces, duplicated, entry :: added, heq, hspec.cons hentry hseen, hvalid, ?_⟩
      rw [hentries, hmore.entries, single_entries, append_assoc]
      rfl

theorem Shaped.deduplicateArrayEntries (h : Shaped base o) :
    Sound base (o.deduplicateArrayEntries base) ∧ Progress o (o.deduplicateArrayEntries base) ∧
      (o.deduplicateArrayEntries base).values base = o.values base := by
  obtain ⟨o', pieces, duplicated, added, heq, hspec, hvalid, hentries⟩ :=
    @deduplicate_spec α base o h [] _ [] h.known nofun
  rw [reverse_nil, flatMap_nil, nil_append] at hentries
  have hold : o'.entries = o.entries := congrArg PieceTree.entries hspec.root
  rw [ArrayOverlay.deduplicateArrayEntries, heq]
  cases duplicated with
  | false =>
    obtain ⟨-, rfl⟩ := hspec.unchanged rfl
    exact ⟨⟨h, hspec.nodup⟩, ⟨.refl o, le_rfl, fun _ => rfl⟩, rfl⟩
  | true =>
    dsimp only
    have hshaped : Shaped base o' := by
      refine h.of_grown hspec.grown hspec.overrides ?_ fun entry hmem => ?_
      · rw [hspec.root]
        exact h.wellFormed
      · rw [hold] at hmem
        exact hspec.grown.known (h.known entry hmem)
    have hrebuilt := hshaped.replaceAllPieces hvalid (by rw [hentries]; exact hspec.known)
    rw [hentries] at hrebuilt
    generalize o'.replaceAllPieces pieces = o₂ at *
    have hgrown : Grown o' o₂ := .of_sources hrebuilt.sources
    refine ⟨⟨hrebuilt.shaped, ?_⟩, ⟨hspec.grown.trans hgrown, ?_, fun hsame => ?_⟩, ?_⟩
    · rw [hrebuilt.entries]
      exact hspec.nodup
    · rw [hrebuilt.generation, hspec.generation]
      exact Nat.le_succ _
    · rw [hrebuilt.generation, hspec.generation] at hsame
      exact absurd hsame (Nat.succ_ne_self _)
    · rw [values, hrebuilt.entries, hgrown.map_entryValueAt hrebuilt.overrides hspec.known,
        hspec.values]
      rfl

/-! ### Sorts -/

/-- What holds of a sort while its comparator runs. -/
structure Pending (base : List α) (o : ArrayOverlay α) (started : SortStart α) : Prop where
  known : ∀ entry ∈ started.order, o.Known base entry
  overridden : ∀ entry, (started.overrides entry).isSome → o.Known base entry
  nodup : started.order.Nodup
  generation : started.generation ≤ o.generation
  order : o.generation = started.generation → o.entries = started.order

theorem Sound.pending (h : Sound base o) : Pending base o o.sortStart :=
  ⟨h.known, h.overridden, h.nodup, le_rfl, fun _ => rfl⟩

theorem Pending.progress (h : Pending base o started) (hprogress : Progress o o') :
    Pending base o' started := by
  refine ⟨fun entry hmem => ?_, fun entry hsome => ?_, h.nodup,
    h.generation.trans hprogress.generation, fun heq => ?_⟩
  · exact hprogress.grown.known (h.known entry hmem)
  · exact hprogress.grown.known (h.overridden entry hsome)
  · have hle := h.generation
    have hle' := hprogress.generation
    rw [hprogress.entries (by omega), h.order (by omega)]

theorem Progress.trans {o₁ o₂ o₃ : ArrayOverlay α} (h : Progress o₁ o₂) (h' : Progress o₂ o₃) :
    Progress o₁ o₃ := by
  refine ⟨h.grown.trans h'.grown, h.generation.trans h'.generation, fun heq => ?_⟩
  have hle := h.generation
  have hle' := h'.generation
  rw [h'.entries (by omega), h.entries (by omega)]

theorem Sound.restoreSortOverrides (h : Sound base o) (hpending : Pending base o started) :
    Sound base (o.restoreSortOverrides started) ∧ Progress o (o.restoreSortOverrides started) := by
  refine ⟨⟨⟨h.wellFormed, h.known, fun entry hsome => ?_⟩, h.nodup⟩, .of_sources rfl, le_rfl,
    fun _ => rfl⟩
  dsimp only [ArrayOverlay.restoreSortOverrides] at hsome
  split_ifs at hsome with hmem
  · exact hpending.overridden entry hsome
  · exact h.overridden entry hsome

/-- The elements a sort read are in their new places, and elements that were put at the end
meanwhile stay there. -/
theorem Sound.sorted (h : Sound base o) {order : List Entry} (hpending : Pending base o started)
    (hperm : order.Perm started.order) :
    ∃ o', o.replacePieceRange 0 (min order.length o.arrayLength) (piecesFromSortOrder order) =
        some o' ∧
      Shaped base o' ∧ Progress o o' ∧
      (o.generation = started.generation → o'.entries.Nodup) := by
  obtain ⟨hentries, hvalid⟩ := piecesFromSortOrder_spec order
  obtain ⟨o', added, hreplace, hreplaced, hadded, -⟩ :=
    h.toShaped.replacePieceRange 0 (min order.length o.arrayLength) hvalid
      (by
        rw [hentries]
        exact fun entry hmem => hpending.known entry (hperm.mem_iff.mp hmem))
      (by
        intro _ hpos
        exact absurd rfl hpos)
  refine ⟨o', hreplace, hreplaced.shaped,
    ⟨hreplaced.grown, hreplaced.generation.1, hreplaced.generation.2⟩, fun hsame => ?_⟩
  have hread := hpending.order hsame
  have hall : 0 + min order.length o.arrayLength = o.entries.length := by
    rw [h.arrayLength, hread, hperm.length_eq]
    omega
  rw [hreplaced.entries, hall, drop_length, take_zero, nil_append, append_nil]
  rcases hadded with rfl | ⟨hnodup, -⟩
  · rw [hentries]
    exact hperm.nodup_iff.mpr hpending.nodup
  · exact hnodup

theorem Sound.sortEnd (h : Sound base o) {started : SortStart α} {order : List Entry}
    (hpending : Pending base o started) (hperm : order.Perm started.order) :
    ∃ o', o.sortEnd base started order = some o' ∧ Sound base o' ∧ Progress o o' := by
  obtain ⟨hsound, hrestored⟩ := h.restoreSortOverrides hpending
  have hpending' := hpending.progress hrestored
  have hgeneration : (o.restoreSortOverrides started).generation = o.generation := rfl
  rw [ArrayOverlay.sortEnd]
  generalize o.restoreSortOverrides started = o₁ at *
  have hsorted : ∃ o₂, (if order <+: o₁.entries then some o₁ else
        o₁.replacePieceRange 0 (min order.length o₁.arrayLength) (piecesFromSortOrder order)) =
          some o₂ ∧
      Shaped base o₂ ∧ Progress o₁ o₂ ∧
      (o₁.generation = started.generation → o₂.entries.Nodup) := by
    split_ifs with hprefix
    · exact ⟨o₁, rfl, hsound.toShaped, ⟨.refl o₁, le_rfl, fun _ => rfl⟩, fun _ => hsound.nodup⟩
    · exact hsound.sorted hpending' hperm
  obtain ⟨o₂, heq, hshaped, hprogress, hnodup⟩ := hsorted
  rw [heq, map_some]
  split_ifs with hstructural
  · obtain ⟨hdeduplicated, hmore, -⟩ := hshaped.deduplicateArrayEntries
    exact ⟨_, rfl, hdeduplicated, (hrestored.trans hprogress).trans hmore⟩
  · exact ⟨o₂, rfl, ⟨hshaped, hnodup (not_not.mp hstructural)⟩, hrestored.trans hprogress⟩

end ArrayOverlay

/-! ### Runs -/

namespace EditedArray

open ArrayOverlay

variable {α : Type} {base : List α} {s s' : EditedArray α} {act : ArrayAct α}

inductive Step (base : List α) : EditedArray α → ArrayAct α → EditedArray α → Prop
  | replaceRange {s : EditedArray α} {index remove start : ℕ} {items : List α}
      {o : ArrayOverlay α} (hstart : start ≤ items.length)
      (h : s.overlay.replaceRange index remove items start = some o) :
      Step base s (.replaceRange index remove items start) { s with overlay := o }
  | writeEntry {s : EditedArray α} (index : ℕ) (value : Option α) :
      Step base s (.writeEntry index value) { s with overlay := s.overlay.writeEntry index value }
  | reverse {s : EditedArray α} : Step base s .reverse { s with overlay := s.overlay.reverse }
  | sortStart {s : EditedArray α} :
      Step base s .sortStart { s with sorting := s.overlay.sortStart :: s.sorting }
  | sortEnd {s : EditedArray α} {started : SortStart α} {rest : List (SortStart α)}
      {order : List Entry} {o : ArrayOverlay α} (hsorting : s.sorting = started :: rest)
      (hperm : order.Perm started.order) (h : s.overlay.sortEnd base started order = some o) :
      Step base s (.sortEnd order) ⟨o, rest⟩
  | sortThrown {s : EditedArray α} {started : SortStart α} {rest : List (SortStart α)}
      (hsorting : s.sorting = started :: rest) : Step base s .sortThrown { s with sorting := rest }

def system (base : List α) : System (EditedArray α) (ArrayAct α) where
  init s := s = ⟨.new base, []⟩
  step := Step base

structure Invariant (base : List α) (s : EditedArray α) : Prop where
  sound : Sound base s.overlay
  pending : ∀ started ∈ s.sorting, ArrayOverlay.Pending base s.overlay started

theorem new_sound (base : List α) : Sound base (.new base) := by
  rw [ArrayOverlay.new]
  split_ifs with hempty
  · exact ⟨⟨trivial, nofun, nofun⟩, nodup_nil⟩
  · have hvalid : (⟨.base, 0, base.length, .forward⟩ : Piece).Valid :=
      ⟨length_pos_iff.mpr hempty, nofun⟩
    obtain ⟨hwell, hentries⟩ := PieceTree.createPieceNode_spec 0x9e3779b9 hvalid
    refine ⟨⟨hwell, fun entry hmem => ?_, nofun⟩, ?_⟩
    · rw [entries_eq, hentries] at hmem
      obtain ⟨kind, index⟩ := entry
      obtain ⟨rfl, -, hlt⟩ := Piece.mem_entries_forward.mp hmem
      rw [known_base]
      simpa using hlt
    · rw [entries_eq, hentries]
      exact hvalid.nodup_entries

theorem Invariant.progress (h : Invariant base s) {o : ArrayOverlay α} (hsound : Sound base o)
    (hprogress : Progress s.overlay o) : Invariant base { s with overlay := o } :=
  ⟨hsound, fun started hmem => (h.pending started hmem).progress hprogress⟩

theorem Invariant.step (h : Invariant base s) (hstep : Step base s act s') : Invariant base s' := by
  cases hstep with
  | @replaceRange index remove start items o hstart heq =>
    obtain ⟨o', heq', hsound, hgrown, -, -, hle, hentries⟩ :=
      h.sound.replaceRange index remove hstart
    rw [heq, Option.some.injEq] at heq'
    subst heq'
    exact h.progress hsound ⟨hgrown, hle, hentries⟩
  | writeEntry index value =>
    obtain ⟨hsound, hprogress⟩ := h.sound.writeEntry index value
    exact h.progress hsound hprogress
  | reverse =>
    obtain ⟨hsound, hprogress, -⟩ := h.sound.reverse
    exact h.progress hsound hprogress
  | sortStart => exact ⟨h.sound, forall_mem_cons.mpr ⟨h.sound.pending, h.pending⟩⟩
  | @sortEnd started rest order o hsorting hperm heq =>
    have hpending := h.pending
    rw [hsorting] at hpending
    obtain ⟨hstarted, hrest⟩ := forall_mem_cons.mp hpending
    obtain ⟨o', heq', hsound, hprogress⟩ := h.sound.sortEnd hstarted hperm
    rw [heq, Option.some.injEq] at heq'
    subst heq'
    exact ⟨hsound, fun other hmem => (hrest other hmem).progress hprogress⟩
  | @sortThrown started rest hsorting =>
    have hpending := h.pending
    rw [hsorting] at hpending
    exact ⟨h.sound, (forall_mem_cons.mp hpending).2⟩

theorem reachable_invariant (hs : (system base).Reachable s) : Invariant base s := by
  apply hs.invariant
  · rintro _ rfl
    exact ⟨new_sound base, nofun⟩
  · intro s act s' hinv _ hstep
    exact hinv.step hstep

/-- Cutting, merging, joining and building trees keep the sequence; in every state of an array under
edit, with sorts running or not, its tree counts its elements right, has no empty piece and no
element twice, and replacing a range leaves the elements before it and behind it. -/
theorem piece_trees_exact (base : List α) :
    (∀ (seed : UInt32) (t : PieceTree) (index : ℕ), t.WellFormed →
      PieceTree.Cut t index (splitPieceTree seed t index)) ∧
    (∀ left right : PieceTree, left.WellFormed → right.WellFormed → (mergePieceTrees left
      right).WellFormed ∧ (mergePieceTrees left right).entries = left.entries ++ right.entries) ∧
    (∀ (fuel : ℕ) (seed : UInt32) (left right : PieceTree), left.WellFormed → right.WellFormed →
      left.nodes + right.nodes < fuel → ∃ joined seed', joinNormalized fuel seed left right = some
      (joined, seed') ∧ joined.WellFormed ∧ joined.entries = left.entries ++ right.entries) ∧
    (∀ (seed : UInt32) (pieces : List Piece), (∀ p ∈ pieces, p.Valid) →
      (treeFromPieces seed pieces).1.WellFormed ∧
        (treeFromPieces seed pieces).1.entries = pieces.flatMap Piece.entries) ∧
    ∀ s, (system base).Reachable s →
      s.overlay.root.WellFormed ∧ (∀ p ∈ s.overlay.root.flatten, 0 < p.length) ∧
      s.overlay.root.entries.Nodup ∧
      (∀ (index remove : ℕ) (inserted : List Piece), (∀ p ∈ inserted, p.Valid) → (∀ entry ∈
        inserted.flatMap Piece.entries, s.overlay.Known base entry) → (index = s.overlay.arrayLength →
        index ≠ 0 → remove = 0 → ∀ p ∈ inserted, p.step = .forward) → ∃ o added,
        s.overlay.replacePieceRange index remove inserted = some o ∧ o.root.WellFormed ∧
        o.root.entries = s.overlay.root.entries.take index ++ (added ++
        s.overlay.root.entries.drop (index + remove)) ∧ added.map (o.sourceValue base) =
          (inserted.flatMap Piece.entries).map (s.overlay.sourceValue base)) ∧
      ∀ (index remove : ℕ) (items : List α) (start : ℕ), start ≤ items.length →
        ∃ o, s.overlay.replaceRange index remove items start = some o ∧
          o.root.WellFormed ∧ o.root.entries.Nodup ∧
          o.values base = (s.overlay.values base).take index ++
            ((items.drop start).map some ++ (s.overlay.values base).drop (index + remove)) := by
  refine ⟨fun seed t index h => PieceTree.splitPieceTree_cut seed h index,
    fun left right hl hr => ?_, fun fuel seed left right hl hr hfuel => ?_,
    fun seed pieces h => PieceTree.treeFromPieces_spec seed h, fun s hs => ?_⟩
  · obtain ⟨hwell, hentries, -⟩ := PieceTree.mergePieceTrees_spec hl hr
    exact ⟨hwell, hentries⟩
  · obtain ⟨joined, seed', heq, hjoined⟩ := PieceTree.joinNormalized_joined seed hl hr hfuel
    exact ⟨joined, seed', heq, hjoined.wellFormed, hjoined.entries⟩
  · have hsound := (reachable_invariant hs).sound
    refine ⟨hsound.wellFormed, fun p hmem => (hsound.wellFormed.valid p hmem).pos, hsound.nodup, fun
      index remove inserted hvalid hknown hforward => ?_, fun index remove items start hstart => ?_⟩
    · obtain ⟨o, added, heq, hreplaced, -, hvalues⟩ :=
        hsound.toShaped.replacePieceRange index remove hvalid hknown hforward
      exact ⟨o, added, heq, hreplaced.shaped.wellFormed, hreplaced.entries, hvalues⟩
    · obtain ⟨o, heq, hsound', -, hvalues, -⟩ := hsound.replaceRange index remove hstart
      exact ⟨o, heq, hsound'.wellFormed, hsound'.nodup, hvalues⟩

/-- An element put between the two of a base that was turned round. -/
theorem piece_trees_exact_reversed :
    ∃ o, (ArrayOverlay.new [10, 20]).reverse.replaceRange 1 0 [30] 0 = some o ∧
      o.root.WellFormed ∧ o.root.entries.Nodup ∧
      o.values [10, 20] = [some 20, some 30, some 10] := by
  have hrun : (system [10, 20]).Reachable ⟨(ArrayOverlay.new [10, 20]).reverse, []⟩ :=
    ⟨_, rfl, .single Step.reverse trivial⟩
  have hvalues : (ArrayOverlay.new [10, 20]).reverse.values [10, 20] = [some 20, some 10] := by
    rw [(new_sound [10, 20]).reverse.2.2]
    rfl
  have hreplace := ((piece_trees_exact [10, 20]).2.2.2.2 _ hrun).2.2.2.2 1 0 [30] 0 (by decide)
  dsimp only at hreplace
  rw [hvalues] at hreplace
  exact hreplace

end EditedArray

end KnightCode.Delta
