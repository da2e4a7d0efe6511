import KnightCode.Delta.ApplyImmutable
import KnightCode.Delta.DiffMatches
import KnightCode.Delta.Revises

/-!
# The difference is exact

Every function of the difference emits operations that revise what it compares: a value at its path,
or the region of an array that follows the items already emitted. The proof is by induction on the
fuel, one lemma for each function; the weight of the arguments says how much of it is enough.
-/

namespace KnightCode.Delta

open List
variable {path : Path} {fuel : ℕ}

open Node

/-! ### Emitted operations -/

/-- The operations emitted from `batch` to `next` satisfy `P`, unless they overflowed. -/
def Emits (batch next : Batch) (P : List Op → Prop) : Prop :=
  next.overflowed = false → batch.overflowed = false ∧
    ∃ ops, next.operations = batch.operations ++ ops ∧ P ops

namespace Emits

variable {batch mid next : Batch} {P Q R : List Op → Prop}

theorem none (h : P []) : Emits batch batch P :=
  fun hover => ⟨hover, [], (append_nil _).symm, h⟩

theorem overflowed (h : batch.overflowed = true) : Emits batch batch P := by
  intro hover
  rw [h] at hover
  cases hover

theorem one {op : Op} (h : P [op]) : Emits batch (emitOperation op batch) P := by
  unfold emitOperation
  split_ifs with hover hfull
  · exact overflowed hover
  · intro hfalse
    cases hfalse
  · intro _
    exact ⟨by simpa using hover, [op], rfl, h⟩

theorem seq (h : Emits batch mid P) (h' : Emits mid next Q)
    (hR : ∀ ops ops', P ops → Q ops' → R (ops ++ ops')) : Emits batch next R := by
  intro hover
  obtain ⟨hmid, ops', hops', hQ⟩ := h' hover
  obtain ⟨hbatch, ops, hops, hP⟩ := h hmid
  refine ⟨hbatch, ops ++ ops', ?_, hR ops ops' hP hQ⟩
  rw [hops', hops, append_assoc]

theorem mono (h : Emits batch next P) (hPQ : ∀ ops, P ops → Q ops) : Emits batch next Q := by
  intro hover
  obtain ⟨hbatch, ops, hops, hP⟩ := h hover
  exact ⟨hbatch, ops, hops, hPQ ops hP⟩

end Emits

/-- A call returns, and what it emitted satisfies `P`. -/
def Runs (result : Option Batch) (batch : Batch) (P : List Op → Prop) : Prop :=
  ∃ next, result = some next ∧ Emits batch next P

/-- No root replacement. -/
def Edits (ops : List Op) : Prop :=
  ∀ op ∈ ops, isBase [op] = false

theorem Edits.append {ops ops' : List Op} (h : Edits ops) (h' : Edits ops') :
    Edits (ops ++ ops') := by
  intro op hop
  obtain hop | hop := mem_append.mp hop
  · exact h op hop
  · exact h' op hop

theorem Edits.nil : Edits [] := fun _ h => by cases h

theorem Edits.edit (path : Path) (edit : Edit) : Edits [.edit path edit] := by
  intro op hop
  rw [mem_singleton.mp hop]
  rfl

/-- The operations make the value at `path` equal to `after`. -/
def Makes (path : Path) (before after : Json) (ops : List Op) : Prop :=
  (∃ value, value.DeepEqual after ∧ Revises path before ops value) ∧ Edits ops

/-- The same for a whole value, which a root replacement may make alone. -/
def MakesValue (path : Path) (before after : Json) (ops : List Op) : Prop :=
  Makes path before after ops ∨ path = [] ∧ ops = [.replace after]

variable {before after : Json}

theorem MakesValue.makes {ops : List Op} (h : MakesValue path before after ops)
    (hpath : path ≠ []) : Makes path before after ops :=
  h.resolve_right fun hroot => hpath hroot.1

/-- The operations make a region of an array equal to `after`, whatever `start` items precede it and
whatever follows. -/
def MakesRegion (path : Path) (start : ℕ) (before after : List Json) (ops : List Op) : Prop :=
  (∀ pre post : List Json, pre.length = start → ∃ items, List.Forall₂ Json.DeepEqual items after ∧
    Revises path (.arr (pre ++ (before ++ post))) ops (.arr (pre ++ (items ++ post)))) ∧ Edits ops

namespace MakesRegion

variable {path : Path} {start : ℕ} {before after : List Json} {ops : List Op}

theorem refl (path : Path) (start : ℕ) (h : List.Forall₂ Json.DeepEqual before after) :
    MakesRegion path start before after [] :=
  ⟨fun _ _ _ => ⟨before, h, .refl _ _⟩, .nil⟩

theorem append {before' after' : List Json} {ops' : List Op}
    (h : MakesRegion path start before after ops)
    (h' : MakesRegion path (start + after.length) before' after' ops') :
    MakesRegion path start (before ++ before') (after ++ after') (ops ++ ops') := by
  refine ⟨fun pre post hpre => ?_, h.2.append h'.2⟩
  obtain ⟨items, hitems, hrun⟩ := h.1 pre (before' ++ post) hpre
  obtain ⟨items', hitems', hrun'⟩ := h'.1 (pre ++ items) post (by
    rw [length_append, hpre, hitems.length_eq])
  refine ⟨items ++ items', rel_append hitems hitems', ?_⟩
  rw [append_assoc] at hrun'
  rw [append_assoc, append_assoc]
  rw [append_assoc] at hrun'
  exact hrun.trans hrun'

theorem splice (hsafe : SafePath path) (start : ℕ) (before after : List Json) :
    MakesRegion path start before after [.edit path (.splice start before.length after)] := by
  refine ⟨fun pre post hpre => ⟨after, forall₂_same.mpr fun x _ => .refl x, ?_⟩, .edit _ _⟩
  have hrun := @Revises.splice path (pre ++ (before ++ post)) hsafe start before.length after
  have hdrop : (pre ++ (before ++ post)).drop (start + before.length) = post := by
    rw [← hpre, ← append_assoc, drop_left' (by simp)]
  rw [take_left' hpre, hdrop] at hrun
  exact hrun

theorem item {value value' : Json} (h : Makes (path ++ [.idx start]) value value' ops) :
    MakesRegion path start [value] [value'] ops := by
  obtain ⟨⟨made, hmade, hrun⟩, hedits⟩ := h
  refine ⟨fun pre post hpre => ⟨[made], .cons hmade .nil, ?_⟩, hedits⟩
  have hmem : (Json.arr (pre ++ ([value] ++ post))).member (.idx start) = some value := by
    simp [Json.member, ← hpre]
  have hwrite : (Json.arr (pre ++ ([value] ++ post))).write (.idx start) made =
      .arr (pre ++ ([made] ++ post)) := by
    simp [Json.write, ← hpre]
  rw [← hwrite]
  exact hrun.member hmem

end MakesRegion

/-! ### Paths, weights and equal items -/

theorem SafePath.idx (h : SafePath path) (index : ℕ) : SafePath (path ++ [.idx index]) := by
  intro name hname
  obtain hname | hname := mem_append.mp hname
  · exact h name hname
  · cases mem_singleton.mp hname

theorem SafePath.key (h : SafePath path) {name : Text} (hname : name ∉ RESERVED_SEGMENTS) :
    SafePath (path ++ [.key name]) := by
  intro n hn
  obtain hn | hn := mem_append.mp hn
  · exact h n hn
  · cases mem_singleton.mp hn
    exact hname

theorem safePath_nil : SafePath [] := fun _ h => by cases h

theorem weight_pos (node : Node) : 0 < node.weight := by
  cases node <;> simp [weight]

theorem itemsWeight_append (items others : List Node) :
    itemsWeight (items ++ others) = itemsWeight items + itemsWeight others := by
  induction items with
  | nil => simp [itemsWeight]
  | cons item items ih =>
    rw [cons_append, itemsWeight, itemsWeight, ih]
    omega

theorem weight_le_members {name : Text} {value : Node} {members : List (Text × Node)}
    (h : Assoc.get name members = some value) : value.weight + 1 ≤ membersWeight members := by
  induction members with
  | nil => cases h
  | cons e members ih =>
    obtain ⟨n, v⟩ := e
    rw [membersWeight]
    rw [Assoc.get_cons] at h
    split_ifs at h
    · cases h
      omega
    · have hrest := ih h
      omega

variable {heap : ℕ → Node}

theorem sameValue_sound {left right : Node} (hl : left.In heap) (hr : right.In heap)
    (h : sameValue left right = true) : left.toJson.DeepEqual right.toJson := by
  obtain h | h := Bool.or_eq_true_iff.mp h
  · exact deepEqual_of_same h hl hr
  · exact equalJson_sound hl right hr h

theorem sameItems_sound {items others : List Node} (hl : ∀ x ∈ items, x.In heap)
    (hr : ∀ x ∈ others, x.In heap)
    (h : List.Forall₂ (fun left right => sameValue left right = true) items others) :
    List.Forall₂ Json.DeepEqual (items.map toJson) (others.map toJson) := by
  induction h with
  | nil => exact .nil
  | cons hhead _ ih =>
    refine .cons (sameValue_sound (hl _ mem_cons_self) (hr _ mem_cons_self) hhead) ?_
    exact ih (fun x hx => hl x (mem_cons_of_mem _ hx))
      fun x hx => hr x (mem_cons_of_mem _ hx)

theorem dropShared_spec {before after rest rest' : List Node} {outputStart start : ℕ}
    (h : dropShared before after outputStart = (rest, rest', start)) :
    ∃ shared shared', before = shared ++ rest ∧ after = shared' ++ rest' ∧
      start = outputStart + shared.length ∧
      List.Forall₂ (fun left right => sameValue left right = true) shared shared' := by
  fun_induction dropShared before after outputStart with
  | case1 b before a after outputStart hsame ih =>
    obtain ⟨shared, shared', rfl, rfl, rfl, hall⟩ := ih h
    refine ⟨b :: shared, a :: shared', rfl, rfl, ?_, .cons hsame hall⟩
    rw [length_cons]
    omega
  | case2 => cases h; exact ⟨[], [], rfl, rfl, rfl, .nil⟩
  | case3 => cases h; exact ⟨[], [], rfl, rfl, rfl, .nil⟩

theorem dropSharedEnd_spec {before after rest rest' : List Node}
    (h : dropSharedEnd before after = (rest, rest')) :
    ∃ shared shared', before = rest ++ shared ∧ after = rest' ++ shared' ∧
      List.Forall₂ (fun left right => sameValue left right = true) shared shared' := by
  unfold dropSharedEnd at h
  rcases hdrop : dropShared before.reverse after.reverse 0 with ⟨b, a, start⟩
  rw [hdrop] at h
  cases h
  obtain ⟨shared, shared', hbefore, hafter, -, hall⟩ := dropShared_spec hdrop
  refine ⟨shared.reverse, shared'.reverse, ?_, ?_, forall₂_reverse_iff.mpr hall⟩
  · rw [← reverse_append, ← hbefore, reverse_reverse]
  · rw [← reverse_append, ← hafter, reverse_reverse]

/-! ### Strings and sets -/

theorem Makes.refl (path : Path) (node : Json) : Makes path node node [] :=
  ⟨⟨node, .refl _, .refl _ _⟩, .nil⟩

theorem Makes.exact {edit : Edit} (h : Revises path before [.edit path edit] after) :
    Makes path before after [.edit path edit] :=
  ⟨⟨after, .refl _, h⟩, .edit _ _⟩

theorem emitString_makes (hsafe : SafePath path) (hpath : path ≠ []) (before after : Text)
    (batch : Batch) :
    Emits batch (emitString before after path batch) (Makes path (.str before) (.str after)) := by
  unfold emitString
  split_ifs with heq hprefix
  · rw [heq]
    exact Emits.none (.refl _ _)
  · apply Emits.one
    have hrun := Revises.append hsafe hpath before (ownedSlice after before.length)
    have hjoin : before ++ ownedSlice after before.length = after := by
      rw [ownedSlice_eq]
      nth_rewrite 1 [← hprefix.2]
      exact take_append_drop _ _
    rw [hjoin] at hrun
    exact .exact hrun
  · obtain ⟨hle, hoverlap⟩ := overlap_spec before after DEFAULT_OVERLAP_SCAN 64 8
    simp only
    generalize overlap before after DEFAULT_OVERLAP_SCAN 64 8 = shared at hle hoverlap ⊢
    have hfront := Revises.truncate hsafe hpath before (before.length - shared)
    rw [hoverlap] at hfront
    split_ifs with hzero hlonger
    · exact Emits.one (.exact (Revises.setAt hsafe hpath _ _))
    · have hback := Revises.append hsafe hpath (after.take shared) (ownedSlice after shared)
      have hjoin : after.take shared ++ ownedSlice after shared = after := by
        rw [ownedSlice_eq, take_append_drop]
      rw [hjoin] at hback
      apply Emits.seq (Emits.one (P := fun ops => ops = _) rfl)
        (Emits.one (P := fun ops => ops = _) rfl)
      rintro ops ops' rfl rfl
      exact ⟨⟨_, .refl _, hfront.trans hback⟩, (Edits.edit _ _).append (.edit _ _)⟩
    · apply Emits.one
      rw [take_of_length_le (not_lt.mp hlonger)] at hfront
      exact .exact hfront

theorem emitSet_makes (hsafe : SafePath path) (before : Json) (after : Node) (batch : Batch) :
    Emits batch (emitSet path after batch) (MakesValue path before after.toJson) := by
  unfold emitSet
  split_ifs with hpath
  · exact Emits.one (.inr ⟨hpath, rfl⟩)
  · exact Emits.one (.inl (.exact (Revises.setAt hsafe hpath _ _)))

/-! ### The calls, one by one -/

/-- The members of `after` come out as they are there, and the others stay. -/
abbrev MakesMembers (path : Path) (before after : List (Text × Node)) (ops : List Op) : Prop :=
  Edits ops ∧ ∀ current, (∀ name ∈ Assoc.keys after,
      Assoc.get name current = Assoc.get name (membersToJson before)) →
    ∃ final, Revises path (.obj current) ops (.obj final) ∧ ∀ name,
      (name ∈ Assoc.keys after →
        Json.Agree (Assoc.get name final) (Assoc.get name (membersToJson after))) ∧
      (name ∉ Assoc.keys after → Assoc.get name final = Assoc.get name current)

/-- What each function does when its fuel is enough for the weight of its arguments. -/
structure Correct (heap : ℕ → Node) (fuel : ℕ) : Prop where
  value : ∀ (before after : Node) (path : Path) (batch : Batch), before.In heap → after.In heap →
    SafePath path → 3 * (before.weight + after.weight) ≤ fuel + 3 →
      Runs (diffValue fuel before after path batch) batch
        (MakesValue path before.toJson after.toJson)
  array : ∀ (ref ref' : ℕ) (before after : List Node) (path : Path) (batch : Batch),
    (Node.arr ref before).In heap → (Node.arr ref' after).In heap → SafePath path →
      3 * (itemsWeight before + itemsWeight after) + 2 ≤ fuel →
        Runs (diffArray fuel (.arr ref before) (.arr ref' after) path batch) batch
          (Makes path (.arr (before.map toJson)) (.arr (after.map toJson)))
  region : ∀ (before after : List Node) (path : Path) (start : ℕ) (batch : Batch),
    (∀ x ∈ before, x.In heap) → (∀ x ∈ after, x.In heap) → SafePath path →
      3 * (itemsWeight before + itemsWeight after) + 1 ≤ fuel →
        Runs (diffArrayRegion fuel before after path start batch) batch
          (MakesRegion path start (before.map toJson) (after.map toJson))
  found : ∀ (before after : List Node) (path : Path) (start : ℕ) (batch : Batch)
    (beforeAt afterAt : ℕ) (found : List (ℕ × ℕ)),
    (∀ x ∈ before, x.In heap) → (∀ x ∈ after, x.In heap) → SafePath path →
      Increasing before.length after.length beforeAt afterAt found →
      3 * (itemsWeight (before.drop beforeAt) + itemsWeight (after.drop afterAt)) +
        (if found = [] then 2 else 0) ≤ fuel →
          Runs (processArrayMatches fuel before after path beforeAt afterAt start found batch)
            batch (MakesRegion path start ((before.drop beforeAt).map toJson)
              ((after.drop afterAt).map toJson))
  object : ∀ (ref ref' : ℕ) (before after : List (Text × Node)) (path : Path) (batch : Batch),
    (Node.obj ref before).In heap → (Node.obj ref' after).In heap → SafePath path →
      3 * (membersWeight before + membersWeight after) + 2 ≤ fuel →
        Runs (diffObject fuel (.obj ref before) (.obj ref' after) path batch) batch
          (MakesValue path (.obj (membersToJson before)) (.obj (membersToJson after)))
  members : ∀ (before after : List (Text × Node)) (path : Path) (batch : Batch),
    (∀ e ∈ before, e.2.In heap) → (∀ e ∈ after, e.2.In heap) → (Assoc.keys after).Nodup →
      SafePath path → (∀ name ∈ Assoc.keys after, name ∉ RESERVED_SEGMENTS) →
      3 * (membersWeight before + membersWeight after) + 1 ≤ fuel →
        Runs (diffMembers fuel before path after batch) batch (MakesMembers path before after)

theorem Runs.done {batch next : Batch} {P : List Op → Prop} (h : Emits batch next P) :
    Runs (some next) batch P :=
  ⟨next, rfl, h⟩

theorem value_correct (ih : Correct heap fuel) (before after : Node) (path : Path) (batch : Batch)
    (hb : before.In heap) (ha : after.In heap) (hsafe : SafePath path)
    (hfuel : 3 * (before.weight + after.weight) ≤ fuel + 1 + 3) :
    Runs (diffValue (fuel + 1) before after path batch) batch
      (MakesValue path before.toJson after.toJson) := by
  rw [diffValue.eq_def]
  simp only
  by_cases hsame : before.same after = true ∨ batch.overflowed = true
  · rw [if_pos hsame]
    apply Runs.done
    obtain hsame | hover := hsame
    · rw [eq_of_same hsame hb ha]
      exact Emits.none (.inl (.refl _ _))
    · exact Emits.overflowed hover
  · rw [if_neg hsame]
    have hset : Runs (some (emitSet path after batch)) batch
        (MakesValue path before.toJson after.toJson) := .done (emitSet_makes hsafe _ _ _)
    cases before with
    | str left =>
      cases after with
      | str right =>
        simp only
        split_ifs with hpath
        · exact .done ((emitString_makes hsafe hpath left right batch).mono fun _ h => .inl h)
        · exact hset
      | _ => exact hset
    | arr ref items =>
      cases after with
      | arr ref' others =>
        simp only [weight] at hfuel
        obtain ⟨next, hrun, hemits⟩ := ih.array ref ref' items others path batch hb ha hsafe
          (by omega)
        refine ⟨next, hrun, hemits.mono fun ops h => .inl ?_⟩
        rw [toJson, toJson, itemsToJson_eq, itemsToJson_eq]
        exact h
      | _ => exact hset
    | obj ref members =>
      cases after with
      | obj ref' others =>
        simp only [weight] at hfuel
        exact ih.object ref ref' members others path batch hb ha hsafe (by omega)
      | _ => exact hset
    | _ => exact hset

theorem array_correct (ih : Correct heap fuel) (ref ref' : ℕ) (before after : List Node)
    (path : Path) (batch : Batch) (hb : (Node.arr ref before).In heap)
    (ha : (Node.arr ref' after).In heap) (hsafe : SafePath path)
    (hfuel : 3 * (itemsWeight before + itemsWeight after) + 2 ≤ fuel + 1) :
    Runs (diffArray (fuel + 1) (.arr ref before) (.arr ref' after) path batch) batch
      (Makes path (.arr (before.map toJson)) (.arr (after.map toJson))) := by
  have hbin : ∀ x ∈ before, x.In heap := by
    cases hb with
    | arr _ h => exact h
  have hain : ∀ x ∈ after, x.In heap := by
    cases ha with
    | arr _ h => exact h
  rw [diffArray]
  by_cases hsame : (Node.arr ref before).same (.arr ref' after) = true ∨
      (Node.arr ref before).equalJson (.arr ref' after) = true
  · rw [if_pos hsame]
    have hequal := sameValue_sound hb ha (Bool.or_eq_true_iff.mpr hsame)
    rw [toJson, toJson, itemsToJson_eq, itemsToJson_eq] at hequal
    exact .done (Emits.none ⟨⟨_, hequal, .refl _ _⟩, .nil⟩)
  · rw [if_neg hsame]
    dsimp only
    split
    · next order horder =>
      have hfound : permutationOf before after = some order := by
        rw [Option.ite_none_right_eq_some] at horder
        exact horder.2
      obtain ⟨hlength, hperm, hforall⟩ := permutationOf_spec hfound
      have hrun := @Revises.permute path (before.map toJson) hsafe order
        (by simpa using hlength) hperm
      apply Runs.done
      apply Emits.one
      refine ⟨⟨_, Json.deepEqual_arr ?_, hrun⟩, .edit _ _⟩
      rw [forall₂_map_left_iff, forall₂_map_right_iff]
      refine forall₂_iff_get.mpr ⟨hforall.length_eq, fun n h₁ h₂ => ?_⟩
      obtain ⟨old, hold, hkey⟩ := hforall.get h₁ h₂
      have heq := eq_of_same (decide_eq_true hkey) (hbin old (mem_of_getElem? hold))
        (hain _ (get_mem after ⟨n, h₂⟩))
      rw [← heq, getD_eq_getElem?_getD, getElem?_map, hold]
      exact .refl _
    · obtain ⟨next, hrun, hemits⟩ := ih.region before after path 0 batch hbin hain hsafe (by omega)
      refine ⟨next, hrun, hemits.mono fun ops h => ?_⟩
      obtain ⟨items, hitems, hrevises⟩ := h.1 [] [] rfl
      simp only [nil_append, append_nil] at hrevises
      exact ⟨⟨_, Json.deepEqual_arr hitems, hrevises⟩, h.2⟩

theorem region_correct (ih : Correct heap fuel) (before after : List Node) (path : Path) (start : ℕ)
    (batch : Batch) (hb : ∀ x ∈ before, x.In heap) (ha : ∀ x ∈ after, x.In heap)
    (hsafe : SafePath path) (hfuel : 3 * (itemsWeight before + itemsWeight after) + 1 ≤ fuel + 1) :
    Runs (diffArrayRegion (fuel + 1) before after path start batch) batch
      (MakesRegion path start (before.map toJson) (after.map toJson)) := by
  rw [diffArrayRegion]
  by_cases hover : batch.overflowed = true
  · rw [if_pos hover]
    exact .done (Emits.overflowed hover)
  · rw [if_neg hover]
    rcases hfirst : dropShared before after start with ⟨before₁, after₁, start₁⟩
    rcases hlast : dropSharedEnd before₁ after₁ with ⟨before₂, after₂⟩
    dsimp only
    rw [hlast]
    dsimp only
    obtain ⟨shared, shared', rfl, rfl, rfl, hshared⟩ := dropShared_spec hfirst
    obtain ⟨tail, tail', rfl, rfl, htail⟩ := dropSharedEnd_spec hlast
    simp only [mem_append] at hb ha
    have hhead := sameItems_sound (fun x hx => hb x (.inl hx)) (fun x hx => ha x (.inl hx))
      hshared
    have hend := sameItems_sound (fun x hx => hb x (.inr (.inr hx)))
      (fun x hx => ha x (.inr (.inr hx))) htail
    have hb₂ : ∀ x ∈ before₂, x.In heap := fun x hx => hb x (.inr (.inl hx))
    have ha₂ : ∀ x ∈ after₂, x.In heap := fun x hx => ha x (.inr (.inl hx))
    simp only [itemsWeight_append] at hfuel
    -- What differs lies between the common beginning and the common end.
    have hmiddle : ∀ ops, MakesRegion path (start + shared.length) (before₂.map toJson)
        (after₂.map toJson) ops → MakesRegion path start
          ((shared ++ (before₂ ++ tail)).map toJson) ((shared' ++ (after₂ ++ tail')).map toJson)
          ops := by
      intro ops hops
      have hlength : start + (shared'.map toJson).length = start + shared.length := by
        rw [length_map, hshared.length_eq]
      have hrest := MakesRegion.append hops (.refl path _ hend)
      have hall := MakesRegion.append (.refl path start hhead) (by rwa [hlength])
      simpa only [map_append, nil_append, append_nil] using hall
    have hsplice : MakesRegion path (start + shared.length) (before₂.map toJson)
        (after₂.map toJson) [.edit path (.splice (start + shared.length) before₂.length
          (after₂.map toJson))] := by
      have h := MakesRegion.splice hsafe (start + shared.length) (before₂.map toJson)
        (after₂.map toJson)
      rwa [length_map] at h
    split_ifs with hempty hone hfound hsingle
    · rw [length_eq_zero_iff, length_eq_zero_iff] at hempty
      rw [hempty.1, hempty.2] at hmiddle
      rw [hempty.1, hempty.2]
      exact .done (Emits.none (hmiddle [] (.refl path _ .nil)))
    · exact .done ((Emits.one hsplice).mono hmiddle)
    · have hincreasing := regionMatches_increasing before₂ after₂
      obtain ⟨next, hrun, hemits⟩ := ih.found before₂ after₂ path (start + shared.length) batch 0 0
        _ hb₂ ha₂ hsafe hincreasing (by simp only [drop_zero, if_neg hfound]; omega)
      exact ⟨next, hrun, hemits.mono hmiddle⟩
    · obtain ⟨⟨b, rfl⟩, ⟨a, rfl⟩⟩ : (∃ b, before₂ = [b]) ∧ ∃ a, after₂ = [a] :=
        ⟨length_eq_one_iff.mp hsingle.1, length_eq_one_iff.mp hsingle.2⟩
      simp only [itemsWeight] at hfuel
      obtain ⟨next, hrun, hemits⟩ := ih.value b a (path ++ [.idx (start + shared.length)]) batch
        (hb₂ b (mem_singleton_self b)) (ha₂ a (mem_singleton_self a)) (hsafe.idx _)
        (by omega)
      exact ⟨next, hrun, hemits.mono fun ops h => hmiddle ops (.item (h.makes (by simp)))⟩
    · exact .done ((Emits.one hsplice).mono hmiddle)

theorem item_correct (ih : Correct heap fuel) {left right : Node} (path : Path) (start : ℕ)
    (batch : Batch) (hl : left.In heap) (hr : right.In heap) (hsafe : SafePath path)
    (hfuel : 3 * (left.weight + right.weight) ≤ fuel + 3) :
    Runs (if sameValue left right then some batch
        else diffValue fuel left right (path ++ [.idx start]) batch) batch
      (MakesRegion path start [left.toJson] [right.toJson]) := by
  split_ifs with hsame
  · exact .done (Emits.none (.refl path start (.cons (sameValue_sound hl hr hsame) .nil)))
  · obtain ⟨next, hrun, hemits⟩ := ih.value left right (path ++ [.idx start]) batch hl hr
      (hsafe.idx start) hfuel
    exact ⟨next, hrun, hemits.mono fun ops h => .item (h.makes (by simp))⟩

theorem Runs.bind {batch : Batch} {result : Option Batch} {f : Batch → Option Batch}
    {P Q R : List Op → Prop} (h : Runs result batch P) (h' : ∀ mid, Runs (f mid) mid Q)
    (hR : ∀ ops ops', P ops → Q ops' → R (ops ++ ops')) : Runs (result.bind f) batch R := by
  obtain ⟨mid, rfl, hmid⟩ := h
  obtain ⟨next, hnext, hemits⟩ := h' mid
  exact ⟨next, hnext, hmid.seq hemits hR⟩

theorem slice_append {n start stop : ℕ} {values : List Node} {value : Node} (hle : start ≤ stop)
    (hget : values[stop]? = some value) (hn : n = stop + 1) :
    values.drop start = slice start stop values ++ (value :: values.drop n) := by
  subst hn
  obtain ⟨hlt, hvalue⟩ := List.getElem?_eq_some_iff.mp hget
  have hsplit : values.take stop ++ (value :: values.drop (stop + 1)) = values := by
    rw [← hvalue, getElem_cons_drop, take_append_drop]
  have hlength : start ≤ (values.take stop).length := by
    rw [length_take]
    omega
  nth_rewrite 1 [← hsplit]
  rw [drop_append_of_le_length hlength]
  rfl

theorem found_correct (ih : Correct heap fuel) (before after : List Node) (path : Path) (start : ℕ)
    (batch : Batch) (beforeAt afterAt : ℕ) (found : List (ℕ × ℕ)) (hb : ∀ x ∈ before, x.In heap)
    (ha : ∀ x ∈ after, x.In heap) (hsafe : SafePath path)
    (hincreasing : Increasing before.length after.length beforeAt afterAt found)
    (hfuel : 3 * (itemsWeight (before.drop beforeAt) + itemsWeight (after.drop afterAt)) +
      (if found = [] then 2 else 0) ≤ fuel + 1) :
    Runs (processArrayMatches (fuel + 1) before after path beforeAt afterAt start found batch)
      batch (MakesRegion path start ((before.drop beforeAt).map toJson)
        ((after.drop afterAt).map toJson)) := by
  cases found with
  | nil =>
    rw [processArrayMatches]
    split_ifs with hover
    · exact .done (Emits.overflowed hover)
    · rw [if_pos rfl] at hfuel
      exact ih.region _ _ path start batch (fun x hx => hb x (mem_of_mem_drop hx))
        (fun x hx => ha x (mem_of_mem_drop hx)) hsafe (by omega)
  | cons first found =>
    obtain ⟨beforeMatch, afterMatch⟩ := first
    obtain ⟨⟨hle, hlt⟩, ⟨hle', hlt'⟩, hrest⟩ := hincreasing
    rw [processArrayMatches]
    split_ifs with hover
    · exact .done (Emits.overflowed hover)
    · have hleft : before[beforeMatch]? = some (before.getD beforeMatch .null) := by
        rw [getD_eq_getElem?_getD, getElem?_eq_getElem hlt]
        rfl
      have hright : after[afterMatch]? = some (after.getD afterMatch .null) := by
        rw [getD_eq_getElem?_getD, getElem?_eq_getElem hlt']
        rfl
      have hbsplit := slice_append hle hleft rfl
      have hasplit := slice_append hle' hright rfl
      have hlength : (slice afterAt afterMatch after).length = afterMatch - afterAt := by
        rw [slice, length_drop, length_take]
        omega
      generalize before.getD beforeMatch .null = left at hleft hbsplit ⊢
      generalize after.getD afterMatch .null = right at hright hasplit ⊢
      rw [hbsplit, hasplit, itemsWeight_append, itemsWeight_append, itemsWeight, itemsWeight,
        if_neg (cons_ne_nil _ _)] at hfuel
      have hlpos := weight_pos left
      have hrpos := weight_pos right
      have hfirst : Runs (diffArrayRegion fuel (slice beforeAt beforeMatch before)
          (slice afterAt afterMatch after) path start batch) batch (MakesRegion path start
            ((slice beforeAt beforeMatch before).map toJson)
            ((slice afterAt afterMatch after).map toJson)) :=
        ih.region _ _ path start batch
          (fun x hx => hb x (mem_of_mem_take (mem_of_mem_drop hx)))
          (fun x hx => ha x (mem_of_mem_take (mem_of_mem_drop hx))) hsafe (by omega)
      have hitem := fun mid => item_correct ih path (start + (afterMatch - afterAt)) mid
        (hb left (mem_of_getElem? hleft)) (ha right (mem_of_getElem? hright)) hsafe
        (by omega)
      have hfound := fun mid => ih.found before after path (start + (afterMatch - afterAt) + 1) mid
        (beforeMatch + 1) (afterMatch + 1) found hb ha hsafe hrest (by split_ifs <;> omega)
      rw [hbsplit, hasplit, map_append, map_append, map_cons, map_cons]
      refine hfirst.bind (fun mid => (hitem mid).bind hfound fun ops ops' h h' => h.append h') ?_
      intro ops ops' h h'
      apply h.append
      rwa [length_map, hlength]

theorem member_correct (ih : Correct heap fuel) (before : List (Text × Node)) (name : Text)
    (value : Node) (path : Path) (batch : Batch) (hb : ∀ e ∈ before, e.2.In heap)
    (hv : value.In heap) (hsafe : SafePath path) (hname : name ∉ RESERVED_SEGMENTS)
    (hfuel : 3 * (membersWeight before + value.weight) ≤ fuel + 3) :
    Runs (match Assoc.get name before with
        | some old => diffValue fuel old value (path ++ [.key name]) batch
        | none => some (emitSet (path ++ [.key name]) value batch)) batch fun ops => Edits ops ∧
      ∀ current, Assoc.get name current = Assoc.get name (membersToJson before) →
        ∃ made, made.DeepEqual value.toJson ∧
          Revises path (.obj current) ops (.obj (Assoc.set name made current)) := by
  have hkey := hsafe.key hname
  cases hget : Assoc.get name before with
  | some old =>
    obtain ⟨next, hrun, hemits⟩ := ih.value old value (path ++ [.key name]) batch
      (hb _ (Assoc.mem_of_get hget)) hv hkey (by
        have hweight := weight_le_members hget
        omega)
    refine ⟨next, hrun, hemits.mono fun ops h => ?_⟩
    obtain ⟨⟨made, hmade, hrevises⟩, hedits⟩ := h.makes (by simp)
    refine ⟨hedits, fun current hcurrent => ⟨made, hmade, ?_⟩⟩
    rw [get_membersToJson, hget] at hcurrent
    have hmember : (Json.obj current).member (.key name) = some old.toJson := hcurrent
    exact hrevises.member hmember
  | none =>
    have hset : ∀ batch, Emits batch (emitSet (path ++ [.key name]) value batch)
        fun ops => ops = [.edit (path ++ [.key name]) (.set value.toJson)] := by
      intro batch
      rw [emitSet, if_neg (by simp)]
      exact Emits.one rfl
    refine ⟨_, rfl, (hset batch).mono fun ops h => ?_⟩
    subst h
    exact ⟨.edit _ _, fun current _ => ⟨_, .refl _, Revises.set hkey rfl _⟩⟩

theorem members_correct (ih : Correct heap fuel) (before after : List (Text × Node)) (path : Path)
    (batch : Batch) (hb : ∀ e ∈ before, e.2.In heap) (ha : ∀ e ∈ after, e.2.In heap)
    (hnodup : (Assoc.keys after).Nodup) (hsafe : SafePath path)
    (hnames : ∀ name ∈ Assoc.keys after, name ∉ RESERVED_SEGMENTS)
    (hfuel : 3 * (membersWeight before + membersWeight after) + 1 ≤ fuel + 1) :
    Runs (diffMembers (fuel + 1) before path after batch) batch
      (MakesMembers path before after) := by
  cases after with
  | nil =>
    rw [diffMembers]
    refine .done (Emits.none ⟨.nil, fun current _ => ⟨current, .refl _ _, fun name => ?_⟩⟩)
    exact ⟨fun h => (by cases h), fun _ => rfl⟩
  | cons first after =>
    obtain ⟨name, value⟩ := first
    obtain ⟨hfresh, hnodup⟩ := nodup_cons.mp hnodup
    simp only [membersWeight] at hfuel
    rw [diffMembers]
    split_ifs with hover
    · exact .done (Emits.overflowed hover)
    · have hfirst := member_correct ih before name value path batch hb
        (ha _ mem_cons_self) hsafe (hnames name mem_cons_self) (by omega)
      have hrest := fun mid => ih.members before after path mid hb
        (fun e he => ha e (mem_cons_of_mem _ he)) hnodup hsafe
        (fun n hn => hnames n (mem_cons_of_mem _ hn)) (by omega)
      refine hfirst.bind hrest ?_
      rintro ops ops' ⟨hedits, hmade⟩ ⟨hedits', hothers⟩
      refine ⟨hedits.append hedits', fun current hcurrent => ?_⟩
      obtain ⟨made, hequal, hrun⟩ := hmade current (hcurrent name mem_cons_self)
      have hcurrent' : ∀ n ∈ Assoc.keys after, Assoc.get n (Assoc.set name made current) =
          Assoc.get n (membersToJson before) := by
        intro n hn
        have hne : name ≠ n := by
          rintro rfl
          exact hfresh hn
        rw [Assoc.get_set_ne hne]
        exact hcurrent n (mem_cons_of_mem _ hn)
      obtain ⟨final, hrun', hfinal⟩ := hothers _ hcurrent'
      refine ⟨final, hrun.trans hrun', fun n => ?_⟩
      obtain ⟨hin, hout⟩ := hfinal n
      rw [membersToJson, Assoc.get_cons]
      by_cases hn : name = n
      · subst hn
        rw [if_pos rfl, hout hfresh, Assoc.get_set_self]
        exact ⟨fun _ => hequal, fun h => absurd mem_cons_self h⟩
      · rw [if_neg hn]
        rw [Assoc.get_set_ne hn] at hout
        refine ⟨fun h => hin ?_, fun h => hout fun hmem => h (mem_cons_of_mem _ hmem)⟩
        exact (mem_cons.mp h).resolve_left (Ne.symm hn)

theorem emitDeletions_makes (hsafe : SafePath path) (after : List (Text × Node))
    (before : List (Text × Node)) (hnames : ∀ name ∈ Assoc.keys before, name ∉ RESERVED_SEGMENTS)
    (batch : Batch) :
    Emits batch (emitDeletions after path before batch) fun ops => Edits ops ∧
      ∀ current, ∃ final, Revises path (.obj current) ops (.obj final) ∧ ∀ name,
        Assoc.get name final = if name ∈ Assoc.keys before ∧ Assoc.get name after = none then none
          else Assoc.get name current := by
  induction before generalizing batch with
  | nil =>
    exact Emits.none ⟨.nil, fun current => ⟨current, .refl _ _, fun name => by simp [Assoc.keys]⟩⟩
  | cons first before ih =>
    obtain ⟨name, value⟩ := first
    have ih := fun batch => ih (fun n hn => hnames n (mem_cons_of_mem _ hn)) batch
    have hkeys : ∀ n, n ∈ Assoc.keys ((name, value) :: before) ↔ n = name ∨ n ∈ Assoc.keys before :=
      fun n => mem_cons
    rw [emitDeletions]
    split_ifs with hover hget
    · exact Emits.overflowed hover
    · have hsafe' := hsafe.key (hnames name mem_cons_self)
      refine (Emits.one (P := fun ops => ops = [.edit (path ++ [.key name]) .delete]) rfl).seq
        (ih _) ?_
      rintro ops ops' rfl ⟨hedits, hrest⟩
      refine ⟨(Edits.edit _ _).append hedits, fun current => ?_⟩
      obtain ⟨final, hrun, hfinal⟩ := hrest (Assoc.erase name current)
      refine ⟨final, (Revises.delete hsafe').trans hrun, fun n => ?_⟩
      simp only [hfinal n, hkeys, Assoc.get_erase]
      by_cases hn : name = n
      · subst hn
        simp [hget]
      · simp [hn, Ne.symm hn]
    · refine (ih batch).mono fun ops h => ⟨h.1, fun current => ?_⟩
      obtain ⟨final, hrun, hfinal⟩ := h.2 current
      refine ⟨final, hrun, fun n => ?_⟩
      simp only [hfinal n, hkeys]
      by_cases hn : n = name
      · subst hn
        simp [hget]
      · simp [hn]

theorem object_correct (ih : Correct heap fuel) (ref ref' : ℕ) (before after : List (Text × Node))
    (path : Path) (batch : Batch) (hb : (Node.obj ref before).In heap)
    (ha : (Node.obj ref' after).In heap) (hsafe : SafePath path)
    (hfuel : 3 * (membersWeight before + membersWeight after) + 2 ≤ fuel + 1) :
    Runs (diffObject (fuel + 1) (.obj ref before) (.obj ref' after) path batch) batch
      (MakesValue path (.obj (membersToJson before)) (.obj (membersToJson after))) := by
  rw [diffObject]
  by_cases hreserved : ((Assoc.keys (Node.obj ref before).members ++
      Assoc.keys (Node.obj ref' after).members).any (· ∈ RESERVED_SEGMENTS)) = true
  · rw [if_pos hreserved]
    split_ifs with hequal
    · have hsound := equalJson_sound hb _ ha hequal
      exact .done (Emits.none (.inl ⟨⟨_, hsound, .refl _ _⟩, .nil⟩))
    · exact .done (emitSet_makes hsafe _ (.obj ref' after) _)
  · rw [if_neg hreserved]
    have hnames : ∀ name, name ∈ Assoc.keys before ∨ name ∈ Assoc.keys after →
        name ∉ RESERVED_SEGMENTS := by
      intro name hname hin
      apply hreserved
      exact any_eq_true.mpr ⟨name, mem_append.mpr hname, decide_eq_true hin⟩
    cases hb with
    | obj _ hbkeys hbin =>
      cases ha with
      | obj _ hakeys hain =>
        have hmembers := ih.members before after path batch hbin hain hakeys hsafe
          (fun name h => hnames name (.inr h)) (by omega)
        have hdelete := fun mid => Runs.done (emitDeletions_makes hsafe after before
          (fun name h => hnames name (.inl h)) mid)
        refine hmembers.bind hdelete ?_
        rintro ops ops' ⟨hedits, hmade⟩ ⟨hedits', hdeleted⟩
        obtain ⟨mid, hrun, hmid⟩ := hmade (membersToJson before) fun _ _ => rfl
        obtain ⟨final, hrun', hfinal⟩ := hdeleted mid
        refine .inl ⟨⟨.obj final, ?_, hrun.trans hrun'⟩, hedits.append hedits'⟩
        apply Json.deepEqual_obj
        intro name
        rw [hfinal name]
        obtain ⟨hin, hout⟩ := hmid name
        by_cases hname : name ∈ Assoc.keys after
        · have hget : Assoc.get name after ≠ none := fun h =>
            (Assoc.get_eq_none_iff name after).mp h hname
          rw [if_neg fun h => hget h.2]
          exact hin hname
        · have hget := (Assoc.get_eq_none_iff name after).mpr hname
          rw [get_membersToJson name after, hget, hout hname, get_membersToJson]
          split_ifs with hold
          · exact .refl _
          · have hnone : Assoc.get name before = none :=
              (Assoc.get_eq_none_iff name before).mpr fun h => hold ⟨h, rfl⟩
            rw [hnone]
            exact .refl _

theorem correct (heap : ℕ → Node) (fuel : ℕ) : Correct heap fuel := by
  induction fuel with
  | zero =>
    constructor
    · intro before after path batch _ _ _ hfuel
      have hb := weight_pos before
      have ha := weight_pos after
      omega
    · intros
      omega
    · intros
      omega
    · intro before after path start batch beforeAt afterAt found _ _ _ hincreasing hfuel
      cases found with
      | nil => simp at hfuel
      | cons first found =>
        obtain ⟨⟨hle, hlt⟩, -, -⟩ := hincreasing
        have hpos : 0 < itemsWeight (before.drop beforeAt) := by
          cases hdrop : before.drop beforeAt with
          | nil =>
            rw [drop_eq_nil_iff] at hdrop
            omega
          | cons item items =>
            have hitem := weight_pos item
            rw [itemsWeight]
            omega
        omega
    · intros
      omega
    · intros
      omega
  | succ fuel ih =>
    exact {
      value := value_correct ih
      array := array_correct ih
      region := region_correct ih
      found := found_correct ih
      object := object_correct ih
      members := members_correct ih }

/-! ### The whole difference -/

/-- A batch that makes `after` of `before`, and whose replacement, if there is one, is alone. -/
def Exact (before after : Json) (ops : List Op) : Prop :=
  (∃ value, applyOps before ops = .ok value ∧ value.DeepEqual after) ∧
    (Edits ops ∨ ops = [.replace after])

theorem Exact.replace (before after : Json) : Exact before after [.replace after] :=
  ⟨⟨after, rfl, .refl _⟩, .inr rfl⟩

theorem MakesValue.exact {ops : List Op} (h : MakesValue [] before after ops) :
    Exact before after ops := by
  obtain ⟨⟨value, hequal, hrun⟩, hedits⟩ | ⟨-, rfl⟩ := h
  · obtain ⟨next, hput, happly⟩ := hrun before rfl
    cases hput
    exact ⟨⟨_, happly, hequal⟩, .inl hedits⟩
  · exact .replace _ _

theorem diffRevisions_cases (numberText : ℚ → Text) (before after : Revision heap) :
    ∃ ops, diffRevisions numberText before.node after.node =
      some ops ∧ Exact before.node.toJson after.node.toJson ops := by
  obtain ⟨batch, hrun, hemits⟩ := (correct heap _).value before.node after.node [] ⟨[], false⟩
    before.held after.held safePath_nil (Nat.le_add_right _ 3)
  rw [diffRevisions, hrun]
  by_cases hover : batch.overflowed = true
  · exact ⟨[.replace after.node.toJson], by simp [hover], .replace _ _⟩
  · obtain ⟨-, ops, hops, hmakes⟩ := hemits (by simpa using hover)
    rw [nil_append] at hops
    have hexact := hops ▸ hmakes.exact
    simp only [bind, Option.bind, hover, Bool.false_eq_true, if_false]
    split_ifs with hbase hsmall hsnapshot
    · exact ⟨_, rfl, hexact⟩
    · exact ⟨_, rfl, hexact⟩
    · exact ⟨_, rfl, .replace _ _⟩
    · exact ⟨_, rfl, hexact⟩

/-- The difference of two revisions applies to the first and makes the second, and it replaces the
root only when it does nothing else. -/
theorem diffRevisions_exact (numberText : ℚ → Text) (owned : ℕ → Bool) {heap : ℕ → Node}
    (before after : Revision heap) :
    ∃ ops, diffRevisions numberText before.node after.node = some ops ∧
      (∃ value, applyImmutable owned before.node.toJson ops = .ok value ∧
        value.DeepEqual after.node.toJson) ∧
      ((∃ value, .replace value ∈ ops) → ops = [.replace after.node.toJson]) := by
  obtain ⟨ops, hdiff, ⟨value, happly, hequal⟩, hreplace⟩ :=
    diffRevisions_cases numberText before after
  refine ⟨ops, hdiff, ⟨value, applyImmutable_of_applyOps owned happly, hequal⟩, ?_⟩
  rintro ⟨replacement, hmem⟩
  refine hreplace.resolve_left fun hedits => ?_
  have hbase := hedits _ hmem
  cases hbase

def sharedItems : Node := .arr 0 [.num 1]

def outerItems : Node := .arr 2 [.num 1, sharedItems]

/-- Two revisions that share an array, which the second also holds inside another. -/
def sharing : ℕ → Node
  | 0 => sharedItems
  | 1 => .obj 1 [([97], sharedItems), ([98], sharedItems)]
  | 2 => outerItems
  | 3 => .obj 3 [([97], outerItems), ([98], sharedItems)]
  | _ => .null

theorem sharing_held : (sharing 1).In sharing ∧ (sharing 3).In sharing := by
  have hshared : sharedItems.In sharing := .arr rfl fun _ h => mem_singleton.mp h ▸ .num 1
  have houter : outerItems.In sharing := .arr rfl (forall_mem_cons.mpr ⟨.num 1, by simpa⟩)
  exact ⟨.obj rfl (by decide) (by simp [hshared]),
    .obj rfl (by decide) (by simp [hshared, houter])⟩

theorem diffRevisions_exact_sharing :
    ∃ ops, diffRevisions (fun _ => []) (sharing 1) (sharing 3) = some ops ∧
      (∃ value, applyImmutable (fun _ => false) (sharing 1).toJson ops = .ok value ∧
        value.DeepEqual (sharing 3).toJson) ∧
      ((∃ value, .replace value ∈ ops) → ops = [.replace (sharing 3).toJson]) :=
  diffRevisions_exact _ _ ⟨_, sharing_held.1⟩ ⟨_, sharing_held.2⟩

example : diffRevisions (fun _ => []) (sharing 1) (sharing 3) =
    some [.edit [.key [97]] (.splice 1 0 [.arr [.num 1]])] := rfl

end KnightCode.Delta
