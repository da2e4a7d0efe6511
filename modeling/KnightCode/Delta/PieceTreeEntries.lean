import KnightCode.Delta.PieceTree

/-!
# The sequence a piece tree represents

A well-formed tree has no empty piece and counts its elements right. Cutting a tree cuts its
sequence, joining trees appends their sequences, and what is merged stays the same elements: a piece
in two parts, and two pieces that follow each other, are the same run of indices.
-/

namespace KnightCode.Delta

open List

namespace Piece
variable {left right : Piece}

/-- A piece has elements, and all of them have an index. -/
structure Valid (p : Piece) : Prop where
  pos : 0 < p.length
  fits : p.step = .backward → p.length ≤ p.start + 1

theorem from_add (step : PieceStep) (start a b : ℕ) :
    step.from start (a + b) = step.from (step.from start a) b := by
  cases step with
  | forward => exact (add_assoc start a b).symm
  | backward => exact Nat.sub_add_eq start a b

theorem entries_append (kind : PieceKind) (start a b : ℕ) (step : PieceStep) :
    (⟨kind, start, a + b, step⟩ : Piece).entries =
      (⟨kind, start, a, step⟩ : Piece).entries ++
        (⟨kind, step.from start a, b, step⟩ : Piece).entries := by
  simp only [entries, indices, range_add, map_append, map_map]
  congr 1
  apply map_congr_left
  intro offset _
  simp only [Function.comp_apply, from_add]

variable {p : Piece}

theorem entries_single (h : p.length = 1) : p.entries = [(p.kind, p.start)] := by
  rw [entries, indices_single h]
  rfl

theorem Follows.from_eq (h : left.Follows right) :
    left.step.from left.start left.length = right.start := by
  rw [Follows] at h
  cases hstep : left.step with
  | forward =>
    rw [hstep] at h
    exact h
  | backward =>
    rw [hstep] at h
    simp only [PieceStep.from]
    omega

theorem Follows.entries_append (h : left.Follows right) (hkind : left.kind = right.kind)
    (hstep : left.step = right.step) :
    ({ left with length := left.length + right.length } : Piece).entries =
      left.entries ++ right.entries := by
  have hright : right = ⟨left.kind, left.step.from left.start left.length, right.length,
      left.step⟩ := by
    rw [h.from_eq, hkind, hstep]
  rw [Piece.entries_append, ← hright]

theorem Follows.valid (h : left.Follows right) (hleft : left.Valid) (hright : right.Valid)
    (hstep : left.step = right.step) :
    ({ left with length := left.length + right.length } : Piece).Valid := by
  refine ⟨Nat.add_pos_left hleft.pos _, fun hback => ?_⟩
  have hfits := hright.fits (hstep ▸ hback)
  rw [Follows, show left.step = .backward from hback] at h
  dsimp only at h ⊢
  omega

theorem Adjacent.entries_append (h : left.Adjacent right) (hkind : left.kind = right.kind)
    (hleft : left.length = 1) (hright : right.length = 1) :
    ({ left with step := left.stepTo right, length := 2 } : Piece).entries =
      left.entries ++ right.entries := by
  rw [entries_single hleft, entries_single hright, ← hkind]
  rcases h with hnext | hprevious
  · simp [entries, indices, stepTo, hnext, range_succ, PieceStep.from]
  · have hnot : ¬ left.start + 1 = right.start := by omega
    simp [entries, indices, stepTo, hnot, range_succ, PieceStep.from]
    omega

theorem Adjacent.valid (h : left.Adjacent right) :
    ({ left with step := left.stepTo right, length := 2 } : Piece).Valid := by
  refine ⟨Nat.two_pos, fun hback => ?_⟩
  dsimp only [stepTo] at hback ⊢
  split_ifs at hback with hnext
  rcases h with h | h
  · exact absurd h hnext
  · omega

theorem merged_spec (h : left.merged right = some p) (hleft : left.Valid) (hright : right.Valid) :
    p.entries = left.entries ++ right.entries ∧ p.Valid := by
  rw [merged] at h
  split_ifs at h with hadjacent hfollows
  · cases h
    obtain ⟨hkind, hone, hone', hadjacent⟩ := hadjacent
    exact ⟨hadjacent.entries_append hkind hone hone', hadjacent.valid⟩
  · cases h
    obtain ⟨hkind, hstep, hfollows⟩ := hfollows
    exact ⟨hfollows.entries_append hkind hstep, hfollows.valid hleft hright hstep⟩

theorem combined_spec (h : mergeablePieces left right = true) (hleft : left.Valid)
    (hright : right.Valid) :
    (combinedPiece left right).entries = left.entries ++ right.entries ∧
      (combinedPiece left right).Valid := by
  rw [mergeablePieces] at h
  split_ifs at h with hkind hsingle
  · obtain ⟨hone, hone'⟩ := hsingle
    have hadjacent := of_decide_eq_true h
    have heq : combinedPiece left right = { left with step := left.stepTo right, length := 2 } := by
      simp [combinedPiece, hone, hone']
    rw [heq]
    exact ⟨hadjacent.entries_append (not_not.mp hkind) hone hone', hadjacent.valid⟩
  · obtain ⟨hstep, hfollows⟩ := of_decide_eq_true h
    have heq : combinedPiece left right =
        { left with length := left.length + right.length } := by
      by_cases hone : left.length = 1
      · have hto : left.stepTo right = left.step := by
          rw [Follows] at hfollows
          cases hleftStep : left.step with
          | forward =>
            rw [hleftStep, hone] at hfollows
            exact if_pos hfollows
          | backward =>
            rw [hleftStep, hone] at hfollows
            exact if_neg (by omega)
        rw [combinedPiece, if_pos hone, hto]
      · rw [combinedPiece, if_neg hone]
    rw [heq]
    exact ⟨hfollows.entries_append (not_not.mp hkind) hstep, hfollows.valid hleft hright hstep⟩

end Piece

/-! ### Well-formed trees -/

namespace PieceTree
variable {pieces : List Piece}

def entries (t : PieceTree) : List Entry :=
  t.flatten.flatMap Piece.entries

/-- No piece is empty, and every node counts the elements of its subtree. -/
def WellFormed : PieceTree → Prop
  | nil => True
  | node piece left right _ elements =>
    piece.Valid ∧ elements = left.entries.length + piece.length + right.entries.length ∧
      left.WellFormed ∧ right.WellFormed

variable {left right t : PieceTree} {piece : Piece} {priority seed : UInt32}

@[simp] theorem entries_nil : nil.entries = [] := rfl

@[simp] theorem entries_node (elements : ℕ) : (node piece left right priority elements).entries =
    left.entries ++ (piece.entries ++ right.entries) := by
  simp [entries, flatten]

@[simp] theorem entries_updated : (updated piece left right priority).entries =
    left.entries ++ (piece.entries ++ right.entries) :=
  entries_node _

theorem WellFormed.elements (h : t.WellFormed) : t.treeElements = t.entries.length := by
  cases t with
  | nil => rfl
  | node piece left right priority elements =>
    obtain ⟨-, heq, -, -⟩ := h
    rw [treeElements, heq, entries_node]
    simp only [length_append, Piece.length_entries]
    omega

theorem wellFormed_updated (hp : piece.Valid) (hl : left.WellFormed) (hr : right.WellFormed) :
    (updated piece left right priority).WellFormed :=
  ⟨hp, by rw [hl.elements, hr.elements], hl, hr⟩

theorem WellFormed.valid (h : t.WellFormed) : ∀ p ∈ t.flatten, p.Valid := by
  induction t with
  | nil => exact nofun
  | node piece left right priority elements ihl ihr =>
    obtain ⟨hp, -, hl, hr⟩ := h
    intro p hmem
    rw [flatten, mem_append, mem_cons] at hmem
    rcases hmem with hmem | rfl | hmem
    · exact ihl hl p hmem
    · exact hp
    · exact ihr hr p hmem

theorem createPieceNode_spec (seed : UInt32) (hp : piece.Valid) :
    (createPieceNode seed piece).1.WellFormed ∧
      (createPieceNode seed piece).1.entries = piece.entries := by
  refine ⟨⟨hp, ?_, trivial, trivial⟩, ?_⟩
  · simp
  · simp [createPieceNode]

/-! ### Merging -/

theorem mergePieceTrees_spec (hl : left.WellFormed) (hr : right.WellFormed) :
    (mergePieceTrees left right).WellFormed ∧
      (mergePieceTrees left right).entries = left.entries ++ right.entries ∧
      (mergePieceTrees left right).nodes = left.nodes + right.nodes := by
  induction left, right using mergePieceTrees.induct with
  | case1 right =>
    rw [mergePieceTrees]
    exact ⟨hr, rfl, by simp [nodes]⟩
  | case2 left hnil =>
    rw [mergePieceTrees]
    · exact ⟨hl, by simp, by simp [nodes]⟩
    · exact hnil
  | case3 p a b u m q c d v n hle ih =>
    obtain ⟨hp, -, ha, hb⟩ := hl
    obtain ⟨hwell, hentries, hnodes⟩ := ih hb hr
    rw [mergePieceTrees, if_pos hle]
    refine ⟨wellFormed_updated hp ha hwell, ?_, ?_⟩
    · simp [hentries]
    · simp only [updated, nodes, hnodes]
      omega
  | case4 p a b u m q c d v n hle ih =>
    obtain ⟨hq, -, hc, hd⟩ := hr
    obtain ⟨hwell, hentries, hnodes⟩ := ih hl hc
    rw [mergePieceTrees, if_neg hle]
    refine ⟨wellFormed_updated hq hwell hd, ?_, ?_⟩
    · simp [hentries]
    · simp only [updated, nodes, hnodes]
      omega

/-! ### Splitting -/

structure Cut (t : PieceTree) (index : ℕ) (cut : PieceTree × PieceTree × UInt32) : Prop where
  before : cut.1.WellFormed
  behind : cut.2.1.WellFormed
  taken : cut.1.entries = t.entries.take index
  dropped : cut.2.1.entries = t.entries.drop index

theorem splitPieceTree_cut (seed : UInt32) (h : t.WellFormed) (index : ℕ) :
    Cut t index (splitPieceTree seed t index) := by
  induction t generalizing index seed with
  | nil => exact ⟨trivial, trivial, by simp [splitPieceTree], by simp [splitPieceTree]⟩
  | node piece left right priority elements ihl ihr =>
    obtain ⟨hp, -, hl, hr⟩ := h
    have hleft := hl.elements
    rw [splitPieceTree]
    dsimp only
    rw [hleft]
    split_ifs with hbefore hbehind hstart hend
    · have hcut := ihl seed hl index
      refine ⟨hcut.before, wellFormed_updated hp hcut.behind hr, ?_, ?_⟩
      · rw [entries_node, take_append_of_le_length hbefore.le]
        exact hcut.taken
      · rw [entries_node, drop_append_of_le_length hbefore.le, entries_updated, hcut.dropped]
    · obtain ⟨rest, rfl⟩ := Nat.exists_eq_add_of_le hbehind.le
      have hcut := ihr seed hr rest
      have hlength : left.entries.length + piece.length = (left.entries ++ piece.entries).length := by
        rw [length_append, Piece.length_entries]
      rw [Nat.add_sub_cancel_left]
      refine ⟨wellFormed_updated hp hl hcut.before, hcut.behind, ?_, ?_⟩
      · rw [entries_node, ← append_assoc, hlength, take_length_add_append,
          entries_updated, hcut.taken, ← append_assoc]
      · rw [entries_node, ← append_assoc, hlength, drop_length_add_append]
        exact hcut.dropped
    · refine ⟨hl, wellFormed_updated hp trivial hr, ?_, ?_⟩
      · rw [entries_node, hstart, take_left]
      · rw [entries_node, hstart, drop_left, entries_updated, entries_nil, nil_append]
    · have hlength : index = (left.entries ++ piece.entries).length := by
        rw [length_append, Piece.length_entries, hend]
      refine ⟨wellFormed_updated hp hl trivial, hr, ?_, ?_⟩
      · rw [entries_node, ← append_assoc, hlength, take_left, entries_updated,
          entries_nil, append_nil]
      · rw [entries_node, ← append_assoc, hlength, drop_left]
    · -- inside the piece, which becomes two
      obtain ⟨offset, rfl⟩ := Nat.exists_eq_add_of_le (not_lt.mp hbefore)
      rw [Nat.add_sub_cancel_left]
      have hpos : 0 < offset := by omega
      have hlt : offset < piece.length := by omega
      have hfirst : ({ piece with length := offset } : Piece).Valid :=
        ⟨hpos, fun hback => (hp.fits hback).trans' hlt.le⟩
      have hsecond : ({ piece with
          start := piece.step.from piece.start offset
          length := piece.length - offset } : Piece).Valid := by
        refine ⟨Nat.sub_pos_of_lt hlt, fun hback => ?_⟩
        have hstep : piece.step = .backward := hback
        have hfits := hp.fits hstep
        simp only [hstep, PieceStep.from]
        omega
      have hpiece : piece.entries = ({ piece with length := offset } : Piece).entries ++
          ({ piece with
            start := piece.step.from piece.start offset
            length := piece.length - offset } : Piece).entries := by
        rw [← Piece.entries_append, Nat.add_sub_cancel' hlt.le]
      obtain ⟨hwell, hentries⟩ := createPieceNode_spec seed hfirst
      obtain ⟨hwell', hentries'⟩ := createPieceNode_spec (nextPiecePriority seed) hsecond
      obtain ⟨hbeforeWell, hbeforeEntries, -⟩ := mergePieceTrees_spec hl hwell
      obtain ⟨hbehindWell, hbehindEntries, -⟩ := mergePieceTrees_spec hwell' hr
      have hlength : left.entries.length + offset =
          (left.entries ++ ({ piece with length := offset } : Piece).entries).length := by
        rw [length_append, Piece.length_entries]
      refine ⟨hbeforeWell, hbehindWell, ?_, ?_⟩
      · rw [entries_node, hpiece, append_assoc, ← append_assoc, hlength, take_left]
        exact hbeforeEntries.trans (congrArg (left.entries ++ ·) hentries)
      · rw [entries_node, hpiece, append_assoc, ← append_assoc, hlength, drop_left]
        exact hbehindEntries.trans (congrArg (· ++ right.entries) hentries')

/-! ### Cuts between two pieces -/

theorem nodes_eq (t : PieceTree) : t.nodes = t.flatten.length := by
  induction t with
  | nil => rfl
  | node piece left right priority elements ihl ihr =>
    rw [nodes, flatten, ihl, ihr]
    simp only [length_append, length_cons]
    omega

theorem length_entries (t : PieceTree) : t.entries.length = (t.flatten.map Piece.length).sum := by
  simp [entries, length_flatMap]

theorem splitPieceTree_between (seed : UInt32) (h : t.WellFormed) {before behind : List Piece}
    (hflatten : t.flatten = before ++ behind) :
    (splitPieceTree seed t (before.map Piece.length).sum).1.flatten = before ∧
      (splitPieceTree seed t (before.map Piece.length).sum).2.1.flatten = behind := by
  induction t generalizing before behind seed with
  | nil =>
    obtain ⟨rfl, rfl⟩ := nil_eq_append_iff.mp hflatten
    exact ⟨rfl, rfl⟩
  | node piece left right priority elements ihl ihr =>
    have hvalid := h.valid
    obtain ⟨hp, -, hl, hr⟩ := h
    have hleft : left.treeElements = (left.flatten.map Piece.length).sum := by
      rw [hl.elements, length_entries]
    have hpos := hp.pos
    rw [flatten] at hflatten
    rw [splitPieceTree]
    dsimp only
    rw [hleft]
    rcases append_eq_append_iff.mp hflatten with ⟨more, rfl, hmore⟩ | ⟨more, hmore, rfl⟩
    · cases more with
      | nil =>
        -- right behind the left subtree
        rw [append_nil] at hflatten ⊢
        rw [nil_append] at hmore
        rw [if_neg (by omega), if_neg (by omega), if_pos rfl]
        exact ⟨rfl, by simpa [updated, flatten] using hmore⟩
      | cons next more =>
        obtain ⟨rfl, hright⟩ := cons_eq_cons.mp hmore
        clear hmore
        simp only [map_append, map_cons, sum_append, sum_cons]
        cases more with
        | nil =>
          -- right behind the node's own piece
          simp only [map_nil, sum_nil, add_zero]
          rw [if_neg (by omega), if_neg (by omega), if_neg (by omega), if_pos trivial]
          exact ⟨by simp [updated, flatten], hright⟩
        | cons first more =>
          have hfirst : 0 < first.length := (hr.valid first (by simp [hright])).pos
          have hcut := ihr seed hr hright
          have hindex : (left.flatten.map Piece.length).sum + (piece.length +
              ((first :: more).map Piece.length).sum) -
                ((left.flatten.map Piece.length).sum + piece.length) =
              ((first :: more).map Piece.length).sum := by omega
          have hbehind : (left.flatten.map Piece.length).sum + piece.length <
              (left.flatten.map Piece.length).sum + (piece.length +
                ((first :: more).map Piece.length).sum) := by
            rw [map_cons, sum_cons]
            omega
          rw [if_neg (by omega), if_pos hbehind, hindex]
          refine ⟨?_, hcut.2⟩
          simp only [updated, flatten, hcut.1]
    · cases more with
      | nil =>
        rw [append_nil] at hmore
        rw [hmore, if_neg (by omega), if_neg (by omega), if_pos rfl]
        exact ⟨hmore, by simp [updated, flatten]⟩
      | cons next more =>
        have hnext : 0 < next.length := (hl.valid next (by simp [hmore])).pos
        have hcut := ihl seed hl hmore
        rw [hmore, map_append, sum_append, if_pos (by simp; omega)]
        refine ⟨hcut.1, ?_⟩
        simp only [updated, flatten, hcut.2]

theorem WellFormed.splitPieceTree_last (seed : UInt32) (h : t.WellFormed) {p : Piece}
    (hlast : ∃ before, t.flatten = before ++ [p]) :
    (splitPieceTree seed t (t.treeElements - p.length)).1.WellFormed ∧
      (splitPieceTree seed t (t.treeElements - p.length)).1.entries ++ p.entries = t.entries ∧
      (splitPieceTree seed t (t.treeElements - p.length)).1.nodes + 1 = t.nodes := by
  obtain ⟨before, hflatten⟩ := hlast
  have hindex : t.treeElements - p.length = (before.map Piece.length).sum := by
    rw [h.elements, length_entries, hflatten]
    simp
  have hcut := (splitPieceTree_between seed h hflatten).1
  rw [hindex]
  refine ⟨(splitPieceTree_cut seed h _).before, ?_, ?_⟩
  · rw [entries, hcut, entries, hflatten]
    simp
  · rw [nodes_eq, hcut, nodes_eq, hflatten]
    simp

theorem WellFormed.splitPieceTree_first (seed : UInt32) (h : t.WellFormed) {p : Piece}
    (hfirst : ∃ behind, t.flatten = p :: behind) :
    (splitPieceTree seed t p.length).2.1.WellFormed ∧
      p.entries ++ (splitPieceTree seed t p.length).2.1.entries = t.entries ∧
      (splitPieceTree seed t p.length).2.1.nodes + 1 = t.nodes := by
  obtain ⟨behind, hflatten⟩ := hfirst
  have hindex : p.length = ([p].map Piece.length).sum := by simp
  have hcut := (@splitPieceTree_between t seed h [p] behind hflatten).2
  rw [hindex]
  refine ⟨(splitPieceTree_cut seed h _).behind, ?_, ?_⟩
  · rw [entries, hcut, entries, hflatten, flatMap_cons]
  · rw [nodes_eq, hcut, nodes_eq, hflatten, length_cons]

/-! ### Joining -/

theorem rightmostPiece_spec (piece : Piece) (left right : PieceTree) :
    ∃ before, left.flatten ++ piece :: right.flatten = before ++ [rightmostPiece piece right] := by
  induction right generalizing piece left with
  | nil => exact ⟨left.flatten, rfl⟩
  | node q c d v n _ ihd =>
    obtain ⟨before, hbefore⟩ := ihd q c
    refine ⟨left.flatten ++ piece :: before, ?_⟩
    rw [flatten, hbefore, rightmostPiece]
    simp

theorem leftmostPiece_spec (piece : Piece) (left right : PieceTree) :
    ∃ behind, left.flatten ++ piece :: right.flatten = leftmostPiece piece left :: behind := by
  induction left generalizing piece right with
  | nil => exact ⟨right.flatten, rfl⟩
  | node q c d v n ihc _ =>
    obtain ⟨behind, hbehind⟩ := ihc q d
    refine ⟨behind ++ piece :: right.flatten, ?_⟩
    rw [flatten, hbehind, leftmostPiece]
    simp

/-- What joining two trees leaves. -/
structure Joined (left right t : PieceTree) : Prop where
  wellFormed : t.WellFormed
  entries : t.entries = left.entries ++ right.entries
  nodes : t.nodes ≤ left.nodes + right.nodes

theorem joinNormalized_joined {fuel : ℕ} (seed : UInt32) (hl : left.WellFormed)
    (hr : right.WellFormed) (hfuel : left.nodes + right.nodes < fuel) :
    ∃ joined seed', joinNormalized fuel seed left right = some (joined, seed') ∧
      Joined left right joined := by
  induction fuel generalizing seed left right with
  | zero => omega
  | succ fuel ih =>
    cases left with
    | nil => exact ⟨right, seed, by rw [joinNormalized], hr, rfl, by simp [nodes]⟩
    | node p a b u m =>
      cases right with
      | nil => exact ⟨_, seed, by rw [joinNormalized]; exact nofun, hl, by simp, by simp [nodes]⟩
      | node q c d v n =>
        rw [joinNormalized]
        dsimp only
        split_ifs with hmergeable
        · -- the pieces that meet become one, and both trees lose a node
          obtain ⟨before, hbefore⟩ := rightmostPiece_spec p a b
          obtain ⟨behind, hbehind⟩ := leftmostPiece_spec q c d
          have hleftValid : (rightmostPiece p b).Valid :=
            hl.valid _ (by rw [flatten, hbefore]; simp)
          have hrightValid : (leftmostPiece q c).Valid :=
            hr.valid _ (by rw [flatten, hbehind]; simp)
          obtain ⟨hcombined, hvalid⟩ := Piece.combined_spec hmergeable hleftValid hrightValid
          have hleftCut := hl.splitPieceTree_last seed (p := rightmostPiece p b) ⟨before, hbefore⟩
          rw [treeElements] at hleftCut
          obtain ⟨hleftWell, hleftEntries, hleftNodes⟩ := hleftCut
          generalize splitPieceTree seed (.node p a b u m) _ = leftCut at *
          obtain ⟨hrightWell, hrightEntries, hrightNodes⟩ :=
            hr.splitPieceTree_first leftCut.2.2 (p := leftmostPiece q c) ⟨behind, hbehind⟩
          generalize splitPieceTree leftCut.2.2 (.node q c d v n) _ = rightCut at *
          obtain ⟨hmiddleWell, hmiddleEntries⟩ := createPieceNode_spec rightCut.2.2 hvalid
          have hmiddleNodes : (createPieceNode rightCut.2.2
              (combinedPiece (rightmostPiece p b) (leftmostPiece q c))).1.nodes = 1 := rfl
          generalize createPieceNode rightCut.2.2 _ = middle at *
          obtain ⟨joined, seed', hjoined, hjoinedSpec⟩ :=
            ih middle.2 hleftWell hmiddleWell (by omega)
          have hjoinedNodes := hjoinedSpec.nodes
          obtain ⟨whole, seed'', hwhole, hwholeSpec⟩ :=
            ih seed' hjoinedSpec.wellFormed hrightWell (by omega)
          have hwholeNodes := hwholeSpec.nodes
          refine ⟨whole, seed'', ?_, hwholeSpec.wellFormed, ?_, by omega⟩
          · rw [hjoined, Option.bind_some]
            exact hwhole
          · rw [hwholeSpec.entries, hjoinedSpec.entries, hmiddleEntries, hcombined,
              ← hleftEntries, ← hrightEntries]
            simp only [append_assoc]
        · obtain ⟨hwell, hentries, hnodes⟩ := mergePieceTrees_spec hl hr
          exact ⟨_, seed, rfl, hwell, hentries, hnodes.le⟩

/-! ### Building and extending -/

theorem mergeFrom_spec {left : Piece} (hleft : left.Valid) (h : ∀ p ∈ pieces, p.Valid) :
    (mergeFrom left pieces).flatMap Piece.entries =
        left.entries ++ pieces.flatMap Piece.entries ∧
      ∀ p ∈ mergeFrom left pieces, p.Valid := by
  induction pieces generalizing left with
  | nil =>
    rw [mergeFrom]
    exact ⟨by simp, by simpa using hleft⟩
  | cons right rest ih =>
    obtain ⟨hright, hrest⟩ := forall_mem_cons.mp h
    rw [mergeFrom, flatMap_cons]
    cases hmerged : left.merged right with
    | some piece =>
      obtain ⟨hentries, hvalid⟩ := Piece.merged_spec hmerged hleft hright
      have hmore := ih hvalid hrest
      rw [hentries, append_assoc] at hmore
      exact hmore
    | none =>
      obtain ⟨hentries, hvalid⟩ := ih hright hrest
      dsimp only
      rw [flatMap_cons, hentries]
      exact ⟨rfl, forall_mem_cons.mpr ⟨hleft, hvalid⟩⟩

theorem mergePieces_spec (h : ∀ p ∈ pieces, p.Valid) :
    (mergePieces pieces).flatMap Piece.entries = pieces.flatMap Piece.entries ∧
      ∀ p ∈ mergePieces pieces, p.Valid := by
  cases pieces with
  | nil => exact ⟨rfl, nofun⟩
  | cons piece rest =>
    obtain ⟨hpiece, hrest⟩ := forall_mem_cons.mp h
    exact mergeFrom_spec hpiece hrest

theorem addPieces_spec (seed : UInt32) (hroot : t.WellFormed) (h : ∀ p ∈ pieces, p.Valid) :
    (addPieces seed t pieces).1.WellFormed ∧
      (addPieces seed t pieces).1.entries = t.entries ++ pieces.flatMap Piece.entries := by
  induction pieces generalizing t seed with
  | nil =>
    rw [addPieces]
    exact ⟨hroot, by simp⟩
  | cons piece rest ih =>
    obtain ⟨hpiece, hrest⟩ := forall_mem_cons.mp h
    obtain ⟨hwell, hsingle⟩ := createPieceNode_spec seed hpiece
    obtain ⟨hmerged, hentries, -⟩ := mergePieceTrees_spec hroot hwell
    obtain ⟨hadded, haddedEntries⟩ := ih (createPieceNode seed piece).2 hmerged hrest
    rw [addPieces]
    refine ⟨hadded, haddedEntries.trans ?_⟩
    rw [hentries, hsingle, flatMap_cons, append_assoc]

theorem treeFromPieces_spec (seed : UInt32) (h : ∀ p ∈ pieces, p.Valid) :
    (treeFromPieces seed pieces).1.WellFormed ∧
      (treeFromPieces seed pieces).1.entries = pieces.flatMap Piece.entries := by
  obtain ⟨hentries, hvalid⟩ := mergePieces_spec h
  obtain ⟨hwell, hadded⟩ := addPieces_spec seed (t := .nil) trivial hvalid
  exact ⟨hwell, hadded.trans hentries⟩

theorem extendRightmostPiece_spec {elements : ℕ} (amount : ℕ)
    (h : (node piece left right priority elements).WellFormed)
    (hstep : (rightmostPiece piece right).step = .forward) :
    (extendRightmostPiece amount (node piece left right priority elements)).WellFormed ∧
      (extendRightmostPiece amount (node piece left right priority elements)).entries =
        (node piece left right priority elements).entries ++
          (⟨(rightmostPiece piece right).kind,
            (rightmostPiece piece right).start + (rightmostPiece piece right).length,
            amount, .forward⟩ : Piece).entries := by
  induction right generalizing piece left priority elements with
  | nil =>
    obtain ⟨hp, -, hl, -⟩ := h
    rw [rightmostPiece] at hstep ⊢
    rw [extendRightmostPiece]
    refine ⟨wellFormed_updated ⟨Nat.add_pos_left hp.pos _, fun hback => ?_⟩ hl trivial, ?_⟩
    · rw [show piece.step = .backward from hback] at hstep
      cases hstep
    · have hpiece : ({ piece with length := piece.length + amount } : Piece).entries =
          piece.entries ++
            (⟨piece.kind, piece.start + piece.length, amount, .forward⟩ : Piece).entries := by
        obtain ⟨kind, start, length, step⟩ := piece
        subst hstep
        exact Piece.entries_append kind start length amount .forward
      rw [entries_updated, entries_node, hpiece]
      simp only [entries_nil, append_nil, append_assoc]
  | node q c d v n _ ihd =>
    obtain ⟨hp, -, hl, hr⟩ := h
    obtain ⟨hwell, hentries⟩ := ihd hr hstep
    rw [extendRightmostPiece]
    refine ⟨wellFormed_updated hp hl hwell, ?_⟩
    rw [entries_updated, hentries]
    simp only [entries_node, rightmostPiece, append_assoc]

end PieceTree

end KnightCode.Delta
