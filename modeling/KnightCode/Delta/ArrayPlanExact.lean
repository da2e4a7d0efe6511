import KnightCode.Delta.ArrayPlan
import Mathlib.Data.List.TakeWhile

/-!
# Plans are exact

The remove runs leave the retained base elements, the permutation puts them in the pieces' order,
and each insert run goes where everything before it is already as in the pieces' sequence.
-/

namespace KnightCode.Delta

open List
variable {start index stop : ℕ} {ranges : List (ℕ × ℕ)} {flags : List Bool}

/-! ### Operations on the root -/

theorem applyOps_nil (root : Json) : applyOps root [] = .ok root := rfl

theorem applyOp_splice (items : List Json) (index remove : ℕ) (inserted : List Json) :
    applyOp (.arr items) (.edit [] (.splice index remove inserted)) =
      .ok (.arr (items.take index ++ (inserted ++ items.drop (index + remove)))) := by
  have hvalid : assertValidOp (.edit [] (.splice index remove inserted)) = .ok () := rfl
  rw [applyOp, hvalid, ← arraySplice_eq]
  rfl

theorem applyOp_permute {items : List Json} {permutation : List ℕ}
    (hlength : items.length = permutation.length) (hnodup : permutation.Nodup)
    (hbound : ∀ index ∈ permutation, index < permutation.length) :
    applyOp (.arr items) (.edit [] (.permute permutation)) =
      .ok (.arr (permutation.map fun index => items.getD index .null)) := by
  have hvalid : assertValidOp (.edit [] (.permute permutation)) = .ok () :=
    assertValidOp_ok.mpr ⟨fun _ hm => (by cases hm), nofun,
      fun p hp => by cases hp; exact assertPermutation_ok.mpr ⟨hnodup, hbound⟩⟩
  have htarget : Edit.onTarget [] (.permute permutation) (.arr items) =
      .ok (.arr (permutation.map fun index => items.getD index .null)) := by
    rw [Edit.onTarget]
    exact if_neg (not_not.mpr hlength)
  rw [applyOp, hvalid]
  exact htarget

/-! ### Remove runs -/

theorem runStart_unretained {retained : List Bool} (hle : runStart retained start ≤ index)
    (hlt : index < start) : retained.getD index false = false := by
  induction start with
  | zero => omega
  | succ start ih =>
    rw [runStart] at hle
    split_ifs at hle with hretained
    · omega
    · by_cases heq : index = start
      · rw [heq]
        simpa using hretained
      · exact ih hle (by omega)

theorem filter_range_of_tail {p : ℕ → Bool} (hle : start ≤ stop)
    (h : ∀ index, start ≤ index → index < stop → p index = false) :
    (range stop).filter p = (range start).filter p := by
  induction stop, hle using Nat.le_induction with
  | base => rfl
  | succ stop hle ih =>
    rw [range_succ, filter_append, ih fun index hi hlt => h index hi (by omega)]
    simp [h stop hle (lt_add_one stop)]

theorem filter_range_succ {p : ℕ → Bool} (h : p stop = true) :
    (range (stop + 1)).filter p = (range stop).filter p ++ [stop] := by
  rw [range_succ, filter_append]
  simp [h]

theorem applyOps_removeRuns (retained : List Bool) (value : ℕ → Json) (stop : ℕ)
    (after : List Json) :
    applyOps (.arr ((range stop).map value ++ after))
        ((removeRunsOf retained stop).map fun run => Op.edit [] (.splice run.1 run.2 [])) =
      .ok (.arr (((range stop).filter fun index => retained.getD index false).map value ++
        after)) := by
  induction stop using Nat.strong_induction_on generalizing after with
  | _ stop ih =>
    cases stop with
    | zero =>
      rw [removeRunsOf]
      rfl
    | succ stop =>
      rw [removeRunsOf]
      split_ifs with hretained
      · have hlast : (range (stop + 1)).map value ++ after =
            (range stop).map value ++ (value stop :: after) := by
          simp [range_succ]
        rw [hlast, ih stop (lt_add_one stop), filter_range_succ hretained]
        simp
      · have hle := runStart_le retained stop
        have hone : applyOp (.arr ((range (stop + 1)).map value ++ after))
            (.edit [] (.splice (runStart retained stop) (stop + 1 - runStart retained stop) [])) =
            .ok (.arr ((range (runStart retained stop)).map value ++ after)) := by
          have htake : ((range (stop + 1)).map value ++ after).take (runStart retained stop) =
              (range (runStart retained stop)).map value := by
            rw [take_append_of_le_length (by simp; omega), ← map_take, take_range,
              min_eq_left (by omega)]
          have hdrop : ((range (stop + 1)).map value ++ after).drop
              (runStart retained stop + (stop + 1 - runStart retained stop)) = after :=
            drop_left' (by simp; omega)
          rw [applyOp_splice, htake, hdrop, nil_append]
        have hrest := filter_range_of_tail (p := fun index => retained.getD index false)
          (show runStart retained stop ≤ stop + 1 by omega) fun index hi hlt => by
            by_cases heq : index = stop
            · rw [heq]
              simpa using hretained
            · exact runStart_unretained hi (by omega)
        rw [map_cons, applyOps, foldlM_cons, hone, hrest]
        exact ih _ (Nat.lt_succ_of_le hle) after

/-! ### Insert runs -/

variable (items : ℕ → ℕ → Json)

def baseValues (value : ℕ → Json) (pieces : List Piece) : List Json :=
  (baseIndices pieces).map value

/-- The pieces' sequence over base elements `value`. -/
def denotedBy (value : ℕ → Json) (pieces : List Piece) : List Json :=
  pieces.flatMap fun p => p.entries.map fun entry =>
    match entry.1 with
    | .base => value entry.2
    | .insert source => items source entry.2

theorem denoted_eq (base : List Json) (pieces : List Piece) :
    denoted items base pieces = denotedBy items (fun index => base.getD index .null) pieces := by
  apply congrArg fun f => flatMap f pieces
  funext p
  cases hkind : p.kind <;> simp [Piece.entries, hkind, Function.comp_def]

variable {items}

theorem denotedBy_insert {value : ℕ → Json} {run : List Piece} (h : ∀ p ∈ run, p.kind ≠ .base) :
    denotedBy items value run = run.flatMap (Piece.inserted items) := by
  apply flatMap_congr
  intro p hp
  cases hkind : p.kind with
  | base => exact absurd hkind (h p hp)
  | insert source => simp [Piece.entries, Piece.inserted, hkind, Function.comp_def]

variable (value : ℕ → Json)

theorem denotedBy_append (before rest : List Piece) :
    denotedBy items value (before ++ rest) =
      denotedBy items value before ++ denotedBy items value rest :=
  flatMap_append

theorem length_denotedBy (pieces : List Piece) :
    (denotedBy items value pieces).length = rangeLength pieces := by
  simp [denotedBy, rangeLength, length_flatMap]

theorem baseIndices_insert {run : List Piece} (h : ∀ p ∈ run, p.kind ≠ .base)
    (rest : List Piece) : baseIndices (run ++ rest) = baseIndices rest := by
  induction run with
  | nil => rfl
  | cons p run ih =>
    rw [cons_append, baseIndices_cons, if_neg (h p mem_cons_self), nil_append]
    exact ih fun q hq => h q (mem_cons_of_mem _ hq)

theorem applyOps_insertRuns (before rest : List Piece) :
    applyOps (.arr (denotedBy items value before ++ baseValues value rest))
        ((insertRunsFrom before.length (rangeLength before) rest).map fun run =>
          Op.edit [] (.splice run.logicalIndex 0
            ((((before ++ rest).take run.stop).drop run.first).flatMap (Piece.inserted items)))) =
      .ok (.arr (denotedBy items value (before ++ rest))) := by
  induction hn : rest.length using Nat.strong_induction_on generalizing before rest with
  | _ n ih =>
    cases rest with
    | nil =>
      rw [insertRunsFrom, append_nil]
      simp [baseValues, baseIndices, applyOps_nil]
    | cons piece rest =>
      rw [length_cons] at hn
      rw [insertRunsFrom]
      split_ifs with hbase
      · have hnext := ih rest.length (by omega) (before ++ [piece]) rest rfl
        have hone : denotedBy items value [piece] = piece.indices.map value := by
          simp [denotedBy, Piece.entries, hbase, Function.comp_def]
        have harray : denotedBy items value before ++ baseValues value (piece :: rest) =
            denotedBy items value (before ++ [piece]) ++ baseValues value rest := by
          rw [baseValues, baseIndices_cons, if_pos hbase, map_append, denotedBy_append, hone,
            append_assoc, baseValues]
        have hcount : rangeLength (before ++ [piece]) = rangeLength before + piece.length := by
          simp [rangeLength]
        rw [length_append, length_singleton, hcount, append_assoc,
          singleton_append] at hnext
        rw [harray]
        exact hnext
      · dsimp only
        have hinsert : ∀ p ∈ piece :: rest.takeWhile Piece.isInsert, p.kind ≠ .base := by
          intro p hp
          rcases mem_cons.mp hp with rfl | hp
          · exact hbase
          · have hone : p.isInsert = true := mem_takeWhile_imp hp
            exact of_decide_eq_true hone
        have hsplit : piece :: rest =
            (piece :: rest.takeWhile Piece.isInsert) ++ rest.dropWhile Piece.isInsert := by
          rw [cons_append, takeWhile_append_dropWhile]
        have hless := (dropWhile_sublist (l := rest) Piece.isInsert).length_le
        rw [hsplit]
        generalize piece :: rest.takeWhile Piece.isInsert = run at hinsert
        generalize rest.dropWhile Piece.isInsert = tail at hless
        have hnext := ih tail.length (by omega) (before ++ run) tail rfl
        have hcount : rangeLength (before ++ run) = rangeLength before + rangeLength run := by
          simp [rangeLength]
        have hitems : (((before ++ (run ++ tail)).take (before.length + run.length)).drop
            before.length).flatMap (Piece.inserted items) = denotedBy items value run := by
          rw [take_length_add_append, drop_left, take_left, denotedBy_insert hinsert]
        have hbases : baseValues value (run ++ tail) = baseValues value tail := by
          rw [baseValues, baseIndices_insert hinsert, baseValues]
        have hone : applyOp (.arr (denotedBy items value before ++ baseValues value tail))
            (.edit [] (.splice (rangeLength before) 0 (denotedBy items value run))) =
            .ok (.arr (denotedBy items value (before ++ run) ++ baseValues value tail)) := by
          rw [applyOp_splice, add_zero, take_left' (length_denotedBy _ _),
            drop_left' (length_denotedBy _ _), denotedBy_append, append_assoc]
        rw [length_append, hcount, append_assoc] at hnext
        rw [map_cons, Nat.add_sub_cancel, hitems, hbases, applyOps, foldlM_cons, hone]
        exact hnext

/-! ### The permutation -/

theorem retainedOf_getD (hlt : index < baseLength) :
    (retainedOf baseLength target).getD index false = decide (index ∈ target) := by
  have hfold : ∀ flags : List Bool, index < flags.length →
      (target.foldl (fun retained index => retained.set index true) flags).getD index false =
        (flags.getD index false || decide (index ∈ target)) := by
    induction target with
    | nil => simp
    | cons other target ih =>
      intro flags hflags
      rw [foldl_cons, ih _ (by rwa [length_set])]
      by_cases heq : other = index
      · simp [heq, hflags]
      · simp [heq, Ne.symm heq]
  rw [retainedOf, hfold _ (by rwa [length_replicate])]
  simp [hlt]

variable {baseLength : ℕ} {target : List ℕ}

theorem mem_retainedBaseOf (hrange : ∀ index ∈ target, index < baseLength) :
    index ∈ retainedBaseOf baseLength (retainedOf baseLength target) ↔ index ∈ target := by
  rw [retainedBaseOf, mem_filter, mem_range]
  constructor
  · rintro ⟨hlt, hretained⟩
    rw [retainedOf_getD hlt] at hretained
    exact of_decide_eq_true hretained
  · intro hmem
    refine ⟨hrange index hmem, ?_⟩
    rw [retainedOf_getD (hrange index hmem)]
    exact decide_eq_true hmem

theorem retainedBaseOf_sorted (baseLength : ℕ) (retained : List Bool) :
    (retainedBaseOf baseLength retained).Pairwise (· < ·) :=
  pairwise_lt_range.filter _

theorem retainedBaseOf_perm (hrange : ∀ index ∈ target, index < baseLength)
    (hnodup : target.Nodup) :
    (retainedBaseOf baseLength (retainedOf baseLength target)).Perm target := by
  have hkept : (retainedBaseOf baseLength (retainedOf baseLength target)).Nodup :=
    (retainedBaseOf_sorted _ _).imp ne_of_lt
  exact (perm_ext_iff_of_nodup hkept hnodup).mpr fun index => mem_retainedBaseOf hrange

theorem eq_of_not_moved {kept : List ℕ} (hlength : kept.length = target.length)
    (h : (target.zipIdx.any fun (value, index) => kept[index]? != some value) = false) :
    target = kept := by
  apply ext_getElem hlength.symm
  intro index hlt hlt'
  rw [any_eq_false] at h
  have hone := h (target[index], index) (mem_zipIdx_iff_getElem?.mpr (by simp))
  have heq : kept[index] = target[index] := by simpa [hlt'] using hone
  exact heq.symm

theorem not_moved_self (target : List ℕ) :
    (target.zipIdx.any fun (value, index) => target[index]? != some value) = false := by
  rw [any_eq_false]
  rintro ⟨value, index⟩ hmem
  have hvalue := mem_zipIdx_iff_getElem?.mp hmem
  simpa using hvalue

theorem applyOps_permutation {kept : List ℕ} (hperm : kept.Perm target) (hnodup : target.Nodup) :
    applyOps (.arr (kept.map value))
        ((if target.zipIdx.any fun (value, index) => kept[index]? != some value then
          some (target.map fun value => kept.idxOf value)
        else none).toList.map fun permutation => Op.edit [] (.permute permutation)) =
      .ok (.arr (target.map value)) := by
  split_ifs with hmoved
  · have hbound : ∀ v ∈ target, kept.idxOf v < kept.length := fun v hv =>
      idxOf_lt_length_iff.mpr (hperm.mem_iff.mpr hv)
    have hone : applyOp (.arr (kept.map value))
        (.edit [] (.permute (target.map fun v => kept.idxOf v))) =
        .ok (.arr ((target.map fun v => kept.idxOf v).map fun index =>
          (kept.map value).getD index .null)) := by
      apply applyOp_permute
      · simp [hperm.length_eq]
      · refine (nodup_map_iff_inj_on hnodup).mpr fun v hv w hw heq => ?_
        exact (idxOf_inj (hperm.mem_iff.mpr hv)).mp heq
      · intro index hindex
        obtain ⟨v, hv, rfl⟩ := mem_map.mp hindex
        rw [length_map, ← hperm.length_eq]
        exact hbound v hv
    have hvalues : ((target.map fun v => kept.idxOf v).map fun index =>
        (kept.map value).getD index .null) = target.map value := by
      rw [map_map]
      apply map_congr_left
      intro v hv
      simp [hbound v hv]
    rw [Option.toList_some, map_singleton, applyOps, foldlM_cons, hone, hvalues]
    rfl
  · rw [eq_of_not_moved hperm.length_eq (Bool.eq_false_iff.mpr hmoved)]
    rfl

/-! ### Ordered pieces -/

/-- Ranges, the last one first, each behind the next in the list. -/
structure Ascending (ranges : List (ℕ × ℕ)) : Prop where
  each : ∀ range ∈ ranges, range.1 ≤ range.2
  behind : ranges.Pairwise fun later earlier => earlier.2 < later.1

def rangeIndices (ranges : List (ℕ × ℕ)) : List ℕ :=
  ranges.reverse.flatMap fun range => range' range.1 (range.2 + 1 - range.1)

theorem rangeIndices_cons (range : ℕ × ℕ) (ranges : List (ℕ × ℕ)) :
    rangeIndices (range :: ranges) =
      rangeIndices ranges ++ range' range.1 (range.2 + 1 - range.1) := by
  simp [rangeIndices]

theorem mem_rangeIndices :
    index ∈ rangeIndices ranges ↔ ∃ range ∈ ranges, range.1 ≤ index ∧ index ≤ range.2 := by
  simp only [rangeIndices, mem_flatMap, mem_reverse, mem_range'_1]
  constructor
  · rintro ⟨range, hmem, hle, hlt⟩
    exact ⟨range, hmem, hle, by omega⟩
  · rintro ⟨range, hmem, hle, hlt⟩
    exact ⟨range, hmem, hle, by omega⟩

theorem Ascending.sorted (h : Ascending ranges) : (rangeIndices ranges).Pairwise (· < ·) := by
  induction ranges with
  | nil => exact .nil
  | cons range ranges ih =>
    obtain ⟨hbefore, hbehind⟩ := pairwise_cons.mp h.behind
    rw [rangeIndices_cons, pairwise_append]
    refine ⟨ih ⟨fun r hr => h.each r (mem_cons_of_mem _ hr), hbehind⟩,
      pairwise_lt_range', fun i hi j hj => ?_⟩
    obtain ⟨earlier, hearlier, -, hle⟩ := mem_rangeIndices.mp hi
    have hlt := hbefore earlier hearlier
    have hge := (mem_range'_1.mp hj).1
    omega

theorem orderedRanges_spec {result : List (ℕ × ℕ)} (h : orderedRanges ranges pieces = some result)
    (hranges : Ascending ranges) :
    Ascending result ∧ rangeIndices result = rangeIndices ranges ++ baseIndices pieces := by
  induction pieces generalizing ranges with
  | nil =>
    cases h
    exact ⟨hranges, by simp [baseIndices]⟩
  | cons piece rest ih =>
    rw [orderedRanges] at h
    split_ifs at h with hskip hmoved hback
    · obtain ⟨hresult, heq⟩ := ih h hranges
      refine ⟨hresult, ?_⟩
      rw [heq, baseIndices_cons]
      split_ifs with hbase
      · have hzero := hskip.resolve_left (not_not.mpr hbase)
        simp [Piece.indices, hzero]
      · rfl
    · push Not at hskip
      have hpos : 0 < piece.length := Nat.pos_of_ne_zero hskip.2
      have hindices : piece.indices = range' piece.start piece.length := by
        rcases lt_or_ge 1 piece.length with hlong | hshort
        · have hforward : piece.step = .forward := by
            by_contra hnot
            exact hmoved ⟨hnot, hlong⟩
          exact Piece.indices_forward hforward
        · have hone : piece.length = 1 := by omega
          rw [Piece.indices_single hone, hone]
          rfl
      have hascending :
          Ascending ((piece.start, piece.start + piece.length - 1) :: ranges) := by
        refine ⟨fun range hr => ?_, pairwise_cons.mpr ⟨fun earlier hearlier => ?_, hranges.behind⟩⟩
        · rcases mem_cons.mp hr with rfl | hr
          · dsimp only
            omega
          · exact hranges.each range hr
        · cases ranges with
          | nil => cases hearlier
          | cons head tail =>
            have hhead : head.2 < piece.start := by simpa using hback
            rcases mem_cons.mp hearlier with rfl | hearlier
            · exact hhead
            · have hlt := (pairwise_cons.mp hranges.behind).1 earlier hearlier
              have hle := hranges.each head mem_cons_self
              dsimp only
              omega
      obtain ⟨hresult, heq⟩ := ih h hascending
      refine ⟨hresult, ?_⟩
      rw [heq, rangeIndices_cons, baseIndices_cons, if_pos hskip.1, hindices, append_assoc]
      have hsize : piece.start + piece.length - 1 + 1 - piece.start = piece.length := by omega
      dsimp only
      rw [hsize]

theorem runStart_eq (hle : start ≤ stop)
    (hgap : ∀ index, start ≤ index → index < stop → flags.getD index false = false)
    (hstart : start = 0 ∨ flags.getD (start - 1) false = true) : runStart flags stop = start := by
  induction stop, hle using Nat.le_induction with
  | base =>
    cases start with
    | zero => rfl
    | succ start =>
      have hretained := hstart.resolve_left (Nat.succ_ne_zero _)
      rw [runStart]
      exact if_pos hretained
  | succ stop hle ih =>
    have hlast := hgap stop hle (lt_add_one stop)
    rw [runStart, hlast]
    exact ih fun index hi hlt => hgap index hi (by omega)

theorem removeRunsOf_retained (hle : start ≤ stop)
    (h : ∀ index, start ≤ index → index < stop → flags.getD index false = true) :
    removeRunsOf flags stop = removeRunsOf flags start := by
  induction stop, hle using Nat.le_induction with
  | base => rfl
  | succ stop hle ih =>
    rw [removeRunsOf, if_pos (h stop hle (lt_add_one stop))]
    exact ih fun index hi hlt => h index hi (by omega)

theorem removeRunsOf_gap (hlt : start < stop)
    (hgap : ∀ index, start ≤ index → index < stop → flags.getD index false = false)
    (hstart : start = 0 ∨ flags.getD (start - 1) false = true) :
    removeRunsOf flags stop = (start, stop - start) :: removeRunsOf flags start := by
  obtain ⟨stop, rfl⟩ := Nat.exists_eq_add_of_lt hlt
  have hlast := hgap (start + stop) (by omega) (by omega)
  have hrun := runStart_eq (by omega : start ≤ start + stop)
    (fun index hi hlt => hgap index hi (by omega)) hstart
  rw [removeRunsOf, hlast, hrun]
  rfl

theorem gapsBefore_eq (h : Ascending ranges) (hstop : ∀ range ∈ ranges, range.2 < stop)
    (hflags : ∀ index < stop, flags.getD index false = true ↔ index ∈ rangeIndices ranges) :
    gapsBefore stop ranges = removeRunsOf flags stop := by
  induction ranges generalizing stop with
  | nil =>
    have hnone : ∀ index < stop, flags.getD index false = false := fun index hlt => by
      simpa [rangeIndices] using hflags index hlt
    rw [gapsBefore]
    split_ifs with hpos
    · rw [removeRunsOf_gap hpos (fun index _ hlt => hnone index hlt) (.inl rfl), removeRunsOf]
      rfl
    · have hzero : stop = 0 := by omega
      rw [hzero, removeRunsOf]
  | cons range rest ih =>
    obtain ⟨first, last⟩ := range
    obtain ⟨hbefore, hbehind⟩ := pairwise_cons.mp h.behind
    have hrange := h.each _ mem_cons_self
    have hlast := hstop _ mem_cons_self
    dsimp only at hrange hlast
    have hinside : ∀ index, first ≤ index → index < last + 1 →
        flags.getD index false = true := fun index hi hlt => by
      refine (hflags index (by omega)).mpr (mem_rangeIndices.mpr ⟨_, mem_cons_self, hi, ?_⟩)
      dsimp only
      omega
    have houtside : ∀ index, last + 1 ≤ index → index < stop →
        flags.getD index false = false := fun index hi hlt => by
      refine Bool.eq_false_iff.mpr fun hretained => ?_
      obtain ⟨r, hr, -, hle⟩ := mem_rangeIndices.mp ((hflags index hlt).mp hretained)
      rcases mem_cons.mp hr with rfl | hr
      · dsimp only at hle
        omega
      · have hearlier := hbefore r hr
        dsimp only at hearlier
        omega
    have hrest : gapsBefore first rest = removeRunsOf flags (last + 1) := by
      rw [removeRunsOf_retained (by omega : first ≤ last + 1) hinside]
      refine ih ⟨fun r hr => h.each r (mem_cons_of_mem _ hr), hbehind⟩
        (fun r hr => hbefore r hr) fun index hlt => ?_
      rw [hflags index (by omega), rangeIndices_cons, mem_append]
      refine ⟨fun hmem => hmem.resolve_right fun hin => ?_, .inl⟩
      have hge := (mem_range'_1.mp hin).1
      dsimp only at hge
      omega
    rw [gapsBefore]
    split_ifs with hgap
    · rw [removeRunsOf_gap hgap houtside (.inr (hinside last (by omega) (by omega))), hrest]
    · have heq : stop = last + 1 := by omega
      rw [heq, hrest]

/-! ### Both plans -/

variable {pieces : List Piece}

theorem orderedArrayPlan_eq (hrange : ∀ index ∈ baseIndices pieces, index < baseLength)
    {plan : ArrayPlan} (h : orderedArrayPlan baseLength pieces = some plan) :
    plan = elementArrayPlan baseLength pieces := by
  obtain ⟨ranges, hranges, rfl⟩ := Option.map_eq_some_iff.mp h
  obtain ⟨hascending, hindices⟩ := orderedRanges_spec hranges ⟨nofun, .nil⟩
  have htarget : rangeIndices ranges = baseIndices pieces := hindices
  have hsorted : (baseIndices pieces).Pairwise (· < ·) := htarget ▸ hascending.sorted
  have hnodup : (baseIndices pieces).Nodup := hsorted.imp ne_of_lt
  have hkept : baseIndices pieces =
      retainedBaseOf baseLength (retainedOf baseLength (baseIndices pieces)) :=
    (retainedBaseOf_perm hrange hnodup).symm.eq_of_pairwise
      (fun a b _ _ hab hba => absurd hab (lt_asymm hba)) hsorted (retainedBaseOf_sorted _ _)
  have hgaps : gapsBefore baseLength ranges =
      removeRunsOf (retainedOf baseLength (baseIndices pieces)) baseLength := by
    apply gapsBefore_eq hascending
    · intro range hr
      apply hrange
      rw [← htarget]
      exact mem_rangeIndices.mpr ⟨range, hr, hascending.each range hr, le_refl _⟩
    · intro index hlt
      rw [retainedOf_getD hlt, htarget, decide_eq_true_iff]
  rw [elementArrayPlan, hgaps]
  dsimp only
  rw [← hkept, not_moved_self]
  rfl

theorem buildArrayPlan_eq (hrange : ∀ index ∈ baseIndices pieces, index < baseLength) :
    buildArrayPlan baseLength pieces = elementArrayPlan baseLength pieces := by
  rw [buildArrayPlan]
  cases h : orderedArrayPlan baseLength pieces with
  | none => rfl
  | some plan => exact orderedArrayPlan_eq hrange h

theorem elementArrayPlan_exact (items : ℕ → ℕ → Json) (base : List Json)
    (hrange : ∀ index ∈ baseIndices pieces, index < base.length)
    (hnodup : (baseIndices pieces).Nodup) :
    applyOps (.arr base) ((elementArrayPlan base.length pieces).operations items [] pieces) =
      .ok (.arr (denoted items base pieces)) := by
  have hbase : base = (range base.length).map fun index => base.getD index .null := by
    apply ext_getElem (by simp)
    intro index hlt hlt'
    simp [hlt]
  have hremove := applyOps_removeRuns (retainedOf base.length (baseIndices pieces))
    (fun index => base.getD index .null) base.length []
  rw [append_nil, append_nil, ← hbase, ← retainedBaseOf] at hremove
  have hpermute := applyOps_permutation (fun index => base.getD index .null)
    (retainedBaseOf_perm hrange hnodup) hnodup
  have hinsert := @applyOps_insertRuns items (fun index => base.getD index .null) [] pieces
  rw [nil_append] at hinsert
  rw [ArrayPlan.operations, elementArrayPlan]
  dsimp only
  rw [append_assoc, applyOps_append hremove, applyOps_append hpermute, denoted_eq]
  exact hinsert

/-- Where no base index occurs twice, the plan's runs and its permutation turn the base array into
the pieces' sequence; the fast plan and the plan from the elements are the same. -/
theorem array_plan_exact (items : ℕ → ℕ → Json) (base : List Json) (pieces : List Piece)
    (hrange : ∀ index ∈ baseIndices pieces, index < base.length)
    (hnodup : (baseIndices pieces).Nodup) :
    applyOps (.arr base) ((buildArrayPlan base.length pieces).operations items [] pieces) =
        .ok (.arr (denoted items base pieces)) ∧
      applyOps (.arr base) ((elementArrayPlan base.length pieces).operations items [] pieces) =
        .ok (.arr (denoted items base pieces)) ∧
      ∀ plan, orderedArrayPlan base.length pieces = some plan →
        plan = elementArrayPlan base.length pieces := by
  have hexact := elementArrayPlan_exact items base hrange hnodup
  refine ⟨?_, hexact, fun plan h => orderedArrayPlan_eq hrange h⟩
  rw [buildArrayPlan_eq hrange]
  exact hexact

/-- Two elements taken backwards, then two new ones. -/
def turnedPieces : List Piece :=
  [⟨.base, 2, 2, .backward⟩, ⟨.insert 0, 0, 2, .forward⟩]

theorem array_plan_exact_turned :
    applyOps (.arr [.num 0, .num 1, .num 2])
        ((buildArrayPlan 3 turnedPieces).operations (fun _ _ => .null) [] turnedPieces) =
      .ok (.arr [.num 2, .num 1, .null, .null]) :=
  (array_plan_exact (fun _ _ => .null) [.num 0, .num 1, .num 2] turnedPieces (by decide)
    (by decide)).1

end KnightCode.Delta
