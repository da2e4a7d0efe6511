import KnightCode.Delta.ArrayOverlay
import KnightCode.Delta.PieceTreeEntries

/-!
# Replacing a range of an edited array

Every element of a sound overlay exists in its source, occurs once, and is one that a value may be
written over. Sources only grow at their ends, so an element keeps its value while others come and
go: replacing a range leaves the elements before it and behind it as they were, also where the last
piece grows instead of the tree.
-/

namespace KnightCode.Delta

open List Option

namespace Piece

theorem Valid.nodup_entries {p : Piece} (h : p.Valid) : p.entries.Nodup := by
  have hinjective : Set.InjOn (p.step.from p.start) {offset | offset < p.length} := by
    intro a ha b hb heq
    simp only [Set.mem_ofPred_eq] at ha hb
    cases hstep : p.step with
    | forward =>
      simp only [hstep, PieceStep.from] at heq
      omega
    | backward =>
      have hfits := h.fits hstep
      simp only [hstep, PieceStep.from] at heq
      omega
  rw [entries]
  apply List.Nodup.map fun a b heq => (Prod.mk.inj heq).2
  rw [indices]
  apply List.Nodup.map_on _ nodup_range
  intro a ha b hb heq
  exact hinjective (mem_range.mp ha) (mem_range.mp hb) heq

theorem mem_entries_forward {kind : PieceKind} {start length : ℕ} {entry : Entry} :
    entry ∈ (⟨kind, start, length, .forward⟩ : Piece).entries ↔
      entry.1 = kind ∧ start ≤ entry.2 ∧ entry.2 < start + length := by
  rw [entries, indices_forward rfl]
  simp only [List.mem_map, mem_range'_1]
  constructor
  · rintro ⟨index, hindex, rfl⟩
    exact ⟨rfl, hindex⟩
  · rintro ⟨rfl, hindex⟩
    exact ⟨entry.2, hindex, rfl⟩

end Piece

namespace ArrayOverlay

variable {α : Type} {base : List α} {o o' : ArrayOverlay α}
variable {source : ℕ} {entry : Entry} {l : List Entry} {inserted : List Piece} {addition : Piece}

/-- The element exists in its source. -/
def Known (base : List α) (o : ArrayOverlay α) (entry : Entry) : Prop :=
  (o.sourceValue base entry).isSome

variable {index extended : ℕ}

@[simp] theorem known_insert :
    o.Known base (.insert source, index) ↔ index < (o.refs source).length := by
  simp [Known, sourceValue]

@[simp] theorem known_base : o.Known base (.base, index) ↔ index < base.length := by
  simp [Known, sourceValue]

/-- Every source is what it was, with more elements behind. -/
def Grown (o o' : ArrayOverlay α) : Prop :=
  ∀ source, o.refs source <+: o'.refs source

/-- What holds of an overlay in any state, in the middle of a sort as well. -/
structure Shaped (base : List α) (o : ArrayOverlay α) : Prop where
  wellFormed : o.root.WellFormed
  known : ∀ entry ∈ o.entries, o.Known base entry
  overridden : ∀ entry, (o.overrides entry).isSome → o.Known base entry

structure Sound (base : List α) (o : ArrayOverlay α) : Prop extends Shaped base o where
  nodup : o.entries.Nodup

theorem entries_eq (o : ArrayOverlay α) : o.entries = o.root.entries := rfl

theorem Shaped.arrayLength (h : Shaped base o) : o.arrayLength = o.entries.length :=
  h.wellFormed.elements

theorem Shaped.length_values (h : Shaped base o) : (o.values base).length = o.arrayLength := by
  rw [values, length_map, h.arrayLength]

/-! ### Growing sources -/

theorem Grown.refl (o : ArrayOverlay α) : Grown o o :=
  fun _ => prefix_refl _

theorem Grown.trans {o₁ o₂ o₃ : ArrayOverlay α} (h : Grown o₁ o₂) (h' : Grown o₂ o₃) :
    Grown o₁ o₃ :=
  fun source => (h source).trans (h' source)

theorem Grown.of_sources (h : o'.sources = o.sources) : Grown o o' := by
  intro source
  rw [refs, refs, h]

theorem Grown.sourceValue (h : Grown o o') (hknown : o.Known base entry) :
    o'.sourceValue base entry = o.sourceValue base entry := by
  obtain ⟨kind, index⟩ := entry
  cases kind with
  | base => rfl
  | insert source =>
    obtain ⟨more, hmore⟩ := h source
    have hlt : index < (o.refs source).length := known_insert.mp hknown
    rw [ArrayOverlay.sourceValue, ArrayOverlay.sourceValue]
    dsimp only
    rw [← hmore, getElem?_append_left hlt]

theorem Grown.known (h : Grown o o') (hknown : o.Known base entry) : o'.Known base entry := by
  rw [Known, h.sourceValue hknown]
  exact hknown

theorem Grown.entryValueAt (h : Grown o o') (hover : o'.overrides = o.overrides)
    (hknown : o.Known base entry) : o'.entryValueAt base entry = o.entryValueAt base entry := by
  rw [ArrayOverlay.entryValueAt, ArrayOverlay.entryValueAt, hover, h.sourceValue hknown]

theorem Grown.map_entryValueAt (h : Grown o o') (hover : o'.overrides = o.overrides)
    (hknown : ∀ entry ∈ l, o.Known base entry) :
    l.map (o'.entryValueAt base) = l.map (o.entryValueAt base) := by
  apply map_congr_left
  intro entry hmem
  exact h.entryValueAt hover (hknown entry hmem)

theorem Shaped.of_grown (h : Shaped base o) (hgrown : Grown o o')
    (hover : o'.overrides = o.overrides) (hwell : o'.root.WellFormed)
    (hknown : ∀ entry ∈ o'.entries, o'.Known base entry) : Shaped base o' := by
  refine ⟨hwell, hknown, fun entry hsome => ?_⟩
  rw [hover] at hsome
  exact hgrown.known (h.overridden entry hsome)

/-! ### Insertions -/

theorem refs_new (o : ArrayOverlay α) : o.refs o.sources.length = [] := by
  simp [refs]

theorem refs_append_source (o : ArrayOverlay α) (added : List α) (source : ℕ) :
    ({ o with sources := o.sources ++ [added] } : ArrayOverlay α).refs source =
      if source = o.sources.length then added else o.refs source := by
  simp only [refs, getD_eq_getElem?_getD]
  split_ifs with hsource
  · rw [hsource, getElem?_concat_length]
    rfl
  · rcases Nat.lt_or_gt_of_ne hsource with hlt | hgt
    · rw [getElem?_append_left hlt]
    · rw [getElem?_eq_none hgt.le, getElem?_eq_none]
      rw [length_append, length_singleton]
      exact hgt

theorem map_sourceValue_forward {start length : ℕ} (h : start + length ≤ (o.refs source).length) :
    (⟨.insert source, start, length, .forward⟩ : Piece).entries.map (o.sourceValue base) =
      (((o.refs source).drop start).take length).map some := by
  rw [Piece.entries, Piece.indices_forward rfl, List.map_map]
  apply ext_getElem
  · simp
    omega
  · intro i hi _
    have hlength : i < length := by simpa using hi
    have hlt : start + i < (o.refs source).length := by omega
    simp [sourceValue, hlt]

/-- What an insertion adds: a forward piece whose elements are new, or none at all. -/
structure Inserted (base : List α) (o o' : ArrayOverlay α) (inserted : List Piece)
    (items : List α) : Prop where
  root : o'.root = o.root
  overrides : o'.overrides = o.overrides
  generation : o'.generation = o.generation
  grown : Grown o o'
  valid : ∀ p ∈ inserted, p.Valid
  forward : ∀ p ∈ inserted, p.step = .forward
  known : ∀ entry ∈ inserted.flatMap Piece.entries, o'.Known base entry
  fresh : ∀ entry ∈ inserted.flatMap Piece.entries, ¬ o.Known base entry
  nodup : (inserted.flatMap Piece.entries).Nodup
  values : (inserted.flatMap Piece.entries).map (o'.sourceValue base) = items.map some

theorem insertPiece_inserted (o : ArrayOverlay α) {added : List α} {start : ℕ}
    (hstart : start ≤ added.length) :
    Inserted base o (o.insertPiece added start).1 (o.insertPiece added start).2
      (added.drop start) := by
  rw [insertPiece]
  split_ifs with hnone
  · have hitems : added.drop start = [] := drop_eq_nil_iff.mpr hnone.le
    rw [hitems]
    exact ⟨rfl, rfl, rfl, .refl o, nofun, nofun, nofun, nofun, nodup_nil, rfl⟩
  · have hvalid : (⟨.insert o.sources.length, start, added.length - start, .forward⟩ :
        Piece).Valid := ⟨by dsimp only; omega, nofun⟩
    have hentries : [(⟨.insert o.sources.length, start, added.length - start, .forward⟩ :
        Piece)].flatMap Piece.entries =
          (⟨.insert o.sources.length, start, added.length - start, .forward⟩ : Piece).entries :=
      flatMap_singleton ..
    refine ⟨rfl, rfl, rfl, ?_, ?_, ?_, ?_, ?_, ?_, ?_⟩
    · intro source
      rw [refs_append_source]
      split_ifs with hsource
      · rw [hsource, refs_new]
        exact nil_prefix
      · exact prefix_refl _
    · simpa using hvalid
    · simp
    · intro entry hmem
      rw [hentries, Piece.mem_entries_forward] at hmem
      obtain ⟨kind, index⟩ := entry
      obtain ⟨rfl, -, hlt⟩ := hmem
      rw [known_insert, refs_append_source, if_pos rfl]
      dsimp only at hlt
      omega
    · intro entry hmem
      rw [hentries, Piece.mem_entries_forward] at hmem
      obtain ⟨kind, index⟩ := entry
      obtain ⟨rfl, -, -⟩ := hmem
      rw [known_insert, refs_new]
      exact Nat.not_lt_zero _
    · rw [hentries]
      exact hvalid.nodup_entries
    · rw [hentries]
      have hsource : ({ o with sources := o.sources ++ [added] } : ArrayOverlay α).refs
          o.sources.length = added := by
        rw [refs_append_source, if_pos rfl]
      rw [map_sourceValue_forward (by rw [hsource]; omega), hsource, take_of_length_le]
      rw [length_drop]

theorem Shaped.of_inserted (h : Shaped base o) {items : List α}
    (hinserted : Inserted base o o' inserted items) : Shaped base o' := by
  have hentries : o'.entries = o.entries := congrArg PieceTree.entries hinserted.root
  refine h.of_grown hinserted.grown hinserted.overrides ?_ fun entry hmem => ?_
  · rw [hinserted.root]
    exact h.wellFormed
  · rw [hentries] at hmem
    exact hinserted.grown.known (h.known entry hmem)

/-! ### Rejoined trees -/

theorem rejoin_spec (h : o.root.WellFormed) (index remove : ℕ) (hvalid : ∀ p ∈ inserted, p.Valid) :
    ∃ root seed,
      o.rejoin index remove inserted =
        some { o with root := root, seed := seed, generation := o.generation + 1 } ∧
      root.WellFormed ∧
      root.entries = o.entries.take index ++
        (inserted.flatMap Piece.entries ++ o.entries.drop (index + remove)) := by
  rw [rejoin]
  dsimp only
  have hleft := PieceTree.splitPieceTree_cut o.seed h index
  generalize splitPieceTree o.seed o.root index = left at *
  have hright := PieceTree.splitPieceTree_cut left.2.2 hleft.behind remove
  generalize splitPieceTree left.2.2 left.2.1 remove = right at *
  obtain ⟨hmiddle, hentries⟩ := PieceTree.treeFromPieces_spec right.2.2 hvalid
  generalize treeFromPieces right.2.2 inserted = middle at *
  generalize hfuel : left.1.nodes + middle.1.nodes + right.2.1.nodes + 1 = fuel
  have hfirst : left.1.nodes + middle.1.nodes < fuel := by omega
  obtain ⟨joined, seed, hjoin, hjoined⟩ :=
    PieceTree.joinNormalized_joined middle.2 hleft.before hmiddle hfirst
  have hsecond : joined.nodes + right.2.1.nodes < fuel := by
    have hnodes := hjoined.nodes
    omega
  obtain ⟨root, seed', hjoin', hroot⟩ :=
    PieceTree.joinNormalized_joined seed hjoined.wellFormed hright.behind hsecond
  refine ⟨root, seed', ?_, hroot.wellFormed, ?_⟩
  · rw [hjoin, bind_some]
    dsimp only
    rw [hjoin']
    rfl
  · rw [hroot.entries, hjoined.entries, hleft.taken, hentries, hright.dropped, hleft.dropped,
      drop_drop, append_assoc]
    rfl

/-! ### Extended tails -/

theorem tailSource_spec (htail : o.tailSource addition = some (extended, source)) :
    addition.kind = .insert source ∧
      ∃ piece left right priority elements,
        o.root = .node piece left right priority elements ∧
        (rightmostPiece piece right).kind = .insert extended ∧
        (rightmostPiece piece right).step = .forward ∧
        (rightmostPiece piece right).start + (rightmostPiece piece right).length =
          (o.refs extended).length := by
  rw [tailSource] at htail
  split at htail
  · next piece left right priority elements source' hroot hkind =>
    dsimp only at htail
    split at htail
    · next extended' hextended =>
      split_ifs at htail with hend
      cases htail
      exact ⟨hkind, piece, left, right, priority, elements, hroot, hextended, hend.1, hend.2⟩
    · cases htail
  · cases htail

theorem refs_set_source (o : ArrayOverlay α) (hlt : extended < o.sources.length) (more : List α)
    (source : ℕ) :
    (o.sources.set extended (o.refs extended ++ more)).getD source [] =
      o.refs source ++ if source = extended then more else [] := by
  simp only [refs, getD_eq_getElem?_getD, getElem?_set]
  by_cases hsource : extended = source
  · subst hsource
    simp [hlt]
  · rw [if_neg hsource, if_neg (Ne.symm hsource), append_nil]

/-- What growing the last piece by an addition leaves. -/
structure Extended (base : List α) (o o' : ArrayOverlay α) (addition added : Piece) : Prop where
  wellFormed : o'.root.WellFormed
  entries : o'.entries = o.entries ++ added.entries
  overrides : o'.overrides = o.overrides
  generation : o'.generation = o.generation + 1
  grown : Grown o o'
  valid : added.Valid
  known : ∀ entry ∈ added.entries, o'.Known base entry
  fresh : ∀ entry ∈ added.entries, ¬ o.Known base entry
  values : added.entries.map (o'.sourceValue base) =
    addition.entries.map (o.sourceValue base)

theorem extendTail_extended (h : Shaped base o) {addition : Piece} {source : ℕ}
    (htail : o.tailSource addition = some (extended, source)) (hvalid : addition.Valid)
    (hforward : addition.step = .forward)
    (hknown : ∀ entry ∈ addition.entries, o.Known base entry) :
    ∃ added, Extended base o (o.extendTail addition extended source) addition added := by
  obtain ⟨hkind, piece, left, right, priority, elements, hroot, htailKind, htailStep, htailEnd⟩ :=
    tailSource_spec htail
  have hwell := h.wellFormed
  rw [hroot] at hwell
  obtain ⟨hwell', hentries⟩ :=
    PieceTree.extendRightmostPiece_spec addition.length hwell htailStep
  rw [← hroot] at hwell' hentries
  rw [htailKind, htailEnd] at hentries
  have hextended : extended < o.sources.length := by
    obtain ⟨before, hflatten⟩ := PieceTree.rightmostPiece_spec piece left right
    have hmem : rightmostPiece piece right ∈ o.root.flatten := by
      rw [hroot, PieceTree.flatten, hflatten]
      exact mem_append_right _ (mem_singleton_self _)
    have hpos := (h.wellFormed.valid _ hmem).pos
    by_contra hout
    rw [refs, getD_eq_getElem?_getD, getElem?_eq_none (not_lt.mp hout)] at htailEnd
    simp only [getD_none, length_nil] at htailEnd
    omega
  obtain ⟨kind, start, length, step⟩ := addition
  dsimp only at hkind hforward
  subst hkind hforward
  have hrange : start + length ≤ (o.refs source).length := by
    have hpos := hvalid.pos
    have hlast := hknown (.insert source, start + length - 1)
      (Piece.mem_entries_forward.mpr ⟨rfl, by dsimp only at hpos ⊢; omega⟩)
    rw [known_insert] at hlast
    dsimp only at hpos
    omega
  have hrefs : ∀ s, (o.extendTail ⟨.insert source, start, length, .forward⟩ extended source).refs s =
      o.refs s ++ if s = extended then ((o.refs source).drop start).take length else [] :=
    refs_set_source o hextended _
  have hlength : (((o.refs source).drop start).take length).length = length := by
    rw [length_take, length_drop]
    omega
  refine ⟨⟨.insert extended, (o.refs extended).length, length, .forward⟩, hwell', hentries, rfl, rfl,
    fun s => ?_, ⟨hvalid.pos, fun h => by cases h⟩, ?_, ?_, ?_⟩
  · rw [hrefs]
    exact prefix_append _ _
  · rintro ⟨kind, index⟩ hmem
    obtain ⟨rfl, -, hlt⟩ := Piece.mem_entries_forward.mp hmem
    rw [known_insert, hrefs, if_pos rfl, length_append, hlength]
    exact hlt
  · rintro ⟨kind, index⟩ hmem
    obtain ⟨rfl, hle, -⟩ := Piece.mem_entries_forward.mp hmem
    rw [known_insert]
    exact Nat.not_lt_of_le hle
  · rw [map_sourceValue_forward, map_sourceValue_forward hrange, hrefs, if_pos rfl, drop_left,
      take_of_length_le hlength.le]
    rw [hrefs, if_pos rfl, length_append, hlength]

/-! ### Ranges replaced -/

/-- What putting other elements in the place of a range leaves. -/
structure Replaced (base : List α) (o o' : ArrayOverlay α) (index remove : ℕ)
    (added : List Entry) : Prop where
  shaped : Shaped base o'
  entries : o'.entries = o.entries.take index ++ (added ++ o.entries.drop (index + remove))
  overrides : o'.overrides = o.overrides
  grown : Grown o o'
  generation : o.generation ≤ o'.generation ∧
    (o'.generation = o.generation → o'.entries = o.entries)

theorem Shaped.replaced_rejoin (h : Shaped base o) (index remove : ℕ)
    (hvalid : ∀ p ∈ inserted, p.Valid)
    (hknown : ∀ entry ∈ inserted.flatMap Piece.entries, o.Known base entry) :
    ∃ o', o.rejoin index remove inserted = some o' ∧
      Replaced base o o' index remove (inserted.flatMap Piece.entries) ∧
      o'.sources = o.sources := by
  obtain ⟨root, seed, hrejoin, hwell, hentries⟩ := rejoin_spec h.wellFormed index remove hvalid
  have hgrown : Grown o { o with root := root, seed := seed, generation := o.generation + 1 } :=
    .of_sources rfl
  refine ⟨_, hrejoin, ⟨h.of_grown hgrown rfl hwell fun entry hmem => ?_, hentries, rfl, hgrown,
    Nat.le_succ _, fun heq => absurd heq (Nat.succ_ne_self _)⟩, rfl⟩
  rw [entries_eq, hentries, mem_append, mem_append] at hmem
  apply hgrown.known
  rcases hmem with hmem | hmem | hmem
  · exact h.known entry (mem_of_mem_take hmem)
  · exact hknown entry hmem
  · exact h.known entry (mem_of_mem_drop hmem)

theorem Extended.replaced {added : Piece} (hx : Extended base o o' addition added)
    (h : Shaped base o) (hindex : index = o.arrayLength) :
    Replaced base o o' index 0 added.entries := by
  have hlength : o.entries.length = index := by rw [hindex, h.arrayLength]
  refine ⟨h.of_grown hx.grown hx.overrides hx.wellFormed fun entry hmem => ?_, ?_, hx.overrides,
    hx.grown, ?_, fun heq => ?_⟩
  · rw [hx.entries, mem_append] at hmem
    rcases hmem with hmem | hmem
    · exact hx.grown.known (h.known entry hmem)
    · exact hx.known entry hmem
  · rw [hx.entries, ← hlength, add_zero, take_length, drop_length, append_nil]
  · rw [hx.generation]
    exact Nat.le_succ _
  · rw [hx.generation] at heq
    exact absurd heq (Nat.succ_ne_self _)

theorem Shaped.arrayLength_ne_zero (h : Shaped base o) {ids : ℕ × ℕ}
    (htail : o.tailSource addition = some ids) : o.arrayLength ≠ 0 := by
  obtain ⟨-, piece, left, right, priority, elements, hroot, -⟩ := tailSource_spec htail
  have hwell := h.wellFormed
  rw [hroot] at hwell
  rw [h.arrayLength, entries_eq, hroot, PieceTree.entries_node, length_append,
    length_append, Piece.length_entries]
  have hpos := hwell.1.pos
  omega

/-- The pieces went in, as they are or as new entries with their values. -/
def PutIn (base : List α) (o : ArrayOverlay α) (result : Option (ArrayOverlay α))
    (index remove : ℕ) (inserted : List Piece) : Prop :=
  ∃ o' added, result = some o' ∧ Replaced base o o' index remove added ∧
    (added = inserted.flatMap Piece.entries ∨
      added.Nodup ∧ ∀ entry ∈ added, ¬ o.Known base entry) ∧
    added.map (o'.sourceValue base) = (inserted.flatMap Piece.entries).map (o.sourceValue base)

theorem Shaped.replacePieceRange (h : Shaped base o) (index remove : ℕ)
    (hvalid : ∀ p ∈ inserted, p.Valid)
    (hknown : ∀ entry ∈ inserted.flatMap Piece.entries, o.Known base entry)
    (hforward : index = o.arrayLength → index ≠ 0 → remove = 0 →
      ∀ p ∈ inserted, p.step = .forward) :
    PutIn base o (o.replacePieceRange index remove inserted) index remove inserted := by
  have hrejoin : PutIn base o (o.rejoin index remove inserted) index remove inserted := by
    obtain ⟨o', hjoin, hreplaced, -⟩ := h.replaced_rejoin index remove hvalid hknown
    refine ⟨o', _, hjoin, hreplaced, .inl rfl, map_congr_left fun entry hmem => ?_⟩
    exact hreplaced.grown.sourceValue (hknown entry hmem)
  rw [ArrayOverlay.replacePieceRange]
  split_ifs with hnothing htail
  · obtain ⟨rfl, rfl⟩ := hnothing
    refine ⟨o, [], rfl, ⟨h, ?_, rfl, .refl o, le_rfl, fun _ => rfl⟩, .inl rfl, rfl⟩
    rw [nil_append, add_zero, take_append_drop]
  · obtain ⟨rfl, hindex⟩ := htail
    split
    · next addition =>
      cases htail : o.tailSource addition with
      | none => exact hrejoin
      | some ids =>
        obtain ⟨hadditionValid, -⟩ := forall_mem_cons.mp hvalid
        have hnonempty : index ≠ 0 := hindex ▸ h.arrayLength_ne_zero htail
        have hadditionForward := hforward hindex hnonempty rfl addition (mem_singleton_self _)
        unfold PutIn
        rw [flatMap_singleton] at hknown ⊢
        obtain ⟨added, hx⟩ :=
          extendTail_extended h htail hadditionValid hadditionForward hknown
        exact ⟨_, added.entries, rfl, hx.replaced h hindex,
          .inr ⟨hx.valid.nodup_entries, hx.fresh⟩, hx.values⟩
    · exact hrejoin
  · exact hrejoin

theorem nodup_replaced {added : List Entry} (index remove : ℕ) (h : l.Nodup) (hadded : added.Nodup)
    (hfresh : ∀ entry ∈ added, entry ∉ l) :
    (l.take index ++ (added ++ l.drop (index + remove))).Nodup := by
  have hparts : (l.take index ++ l.drop (index + remove)).Nodup := by
    have hdrop : (l.drop (index + remove)).Sublist (l.drop index) := by
      rw [← drop_drop]
      exact drop_sublist remove _
    have hsub := hdrop.append_left (l.take index)
    rw [take_append_drop] at hsub
    exact h.sublist hsub
  rw [nodup_append'] at hparts ⊢
  obtain ⟨htake, hdrop, hdisjoint⟩ := hparts
  refine ⟨htake, ?_, ?_⟩
  · rw [nodup_append']
    exact ⟨hadded, hdrop, fun entry hmem hdropped => hfresh entry hmem (mem_of_mem_drop hdropped)⟩
  · intro entry hmem hmore
    rcases mem_append.mp hmore with hmore | hmore
    · exact hfresh entry hmore (mem_of_mem_take hmem)
    · exact hdisjoint hmem hmore

theorem map_entryValueAt_fresh (h : ∀ entry ∈ l, o.overrides entry = none) :
    l.map (o.entryValueAt base) = l.map (o.sourceValue base) := by
  apply map_congr_left
  intro entry hmem
  rw [entryValueAt, h entry hmem, none_or]

theorem Shaped.overrides_none (h : Shaped base o) (hfresh : ¬ o.Known base entry) :
    o.overrides entry = none := by
  by_contra hsome
  exact hfresh (h.overridden entry (isSome_iff_ne_none.mpr hsome))

/-- A range of a sound overlay is replaced by the elements of an insertion, and the elements before
and behind it stay. -/
theorem Sound.replaceRange (h : Sound base o) (index remove : ℕ) {items : List α} {start : ℕ}
    (hstart : start ≤ items.length) :
    ∃ o', o.replaceRange index remove items start = some o' ∧ Sound base o' ∧ Grown o o' ∧
      o'.values base = (o.values base).take index ++
        ((items.drop start).map some ++ (o.values base).drop (index + remove)) ∧
      o'.overrides = o.overrides ∧ o.generation ≤ o'.generation ∧
      (o'.generation = o.generation → o'.entries = o.entries) := by
  have hinserted : Inserted base o (o.insertPiece items start).1 (o.insertPiece items start).2
      (items.drop start) := insertPiece_inserted o hstart
  rw [ArrayOverlay.replaceRange]
  generalize o.insertPiece items start = pair at hinserted ⊢
  obtain ⟨o₁, inserted⟩ := pair
  dsimp only at hinserted ⊢
  have hentries : o₁.entries = o.entries := congrArg PieceTree.entries hinserted.root
  have hshaped := h.toShaped.of_inserted hinserted
  obtain ⟨o', added, hreplace, hreplaced, hadded, hvalues⟩ :=
    hshaped.replacePieceRange index remove hinserted.valid hinserted.known
      (fun _ _ _ => hinserted.forward)
  have hgrown := hinserted.grown.trans hreplaced.grown
  have hover : o'.overrides = o.overrides := hreplaced.overrides.trans hinserted.overrides
  have hnew : added.Nodup ∧ ∀ entry ∈ added, ¬ o.Known base entry := by
    rcases hadded with rfl | ⟨hnodup, hfresh⟩
    · exact ⟨hinserted.nodup, hinserted.fresh⟩
    · exact ⟨hnodup, fun entry hmem hknown => hfresh entry hmem (hinserted.grown.known hknown)⟩
  have hsequence := hreplaced.entries
  rw [hentries] at hsequence
  refine ⟨o', hreplace, ⟨hreplaced.shaped, ?_⟩, hgrown, ?_, hover, ?_, ?_⟩
  · rw [hsequence]
    exact nodup_replaced index remove h.nodup hnew.1 fun entry hmem hold =>
      hnew.2 entry hmem (h.known entry hold)
  · have hold := hgrown.map_entryValueAt hover h.known
    have haddedValues : added.map (o'.entryValueAt base) = (items.drop start).map some := by
      rw [map_entryValueAt_fresh, hvalues, hinserted.values]
      intro entry hmem
      rw [hover]
      exact h.overrides_none (hnew.2 entry hmem)
    have htake : (o.entries.take index).map (o'.entryValueAt base) =
        (o.values base).take index := by
      rw [map_take, hold]
      rfl
    have hdrop : (o.entries.drop (index + remove)).map (o'.entryValueAt base) =
        (o.values base).drop (index + remove) := by
      rw [map_drop, hold]
      rfl
    rw [values, hsequence, map_append, map_append, haddedValues, htake, hdrop]
  · rw [← hinserted.generation]
    exact hreplaced.generation.1
  · intro heq
    rw [← hinserted.generation] at heq
    rw [hreplaced.generation.2 heq, hentries]

end ArrayOverlay

end KnightCode.Delta
