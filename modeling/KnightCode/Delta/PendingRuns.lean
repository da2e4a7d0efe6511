import KnightCode.Delta.PendingOps
import KnightCode.Library.System

/-!
# What a slow consumer sees

The queue on a memory of arrays does what the queue by value does on their contents: it changes no
array but the one it made for its folding, and batches are shared only while they wait. So whatever
is pushed and taken, the consumer has the current value, and no batch changes.
-/

namespace KnightCode.Delta

open Function List

variable {path : Path} {owner : ℕ} {arrays : List ℕ} {memory memory' : Memory} {ops : List Op}
  {leaves : List (Text × ℕ)}

/-! ### Memory -/

/-- Everything made before stays as it is, but for the array of the owner. -/
structure Memory.Extends (owner : ℕ) (memory memory' : Memory) : Prop where
  arrays : memory.arrays ≤ memory'.arrays
  tuples : memory.tuples ≤ memory'.tuples
  array : ∀ a, a < memory.arrays → a ≠ owner → memory'.array a = memory.array a
  tuple : ∀ r, r < memory.tuples → memory'.tuple r = memory.tuple r

namespace Memory

theorem Extends.refl (owner : ℕ) (memory : Memory) : Extends owner memory memory :=
  ⟨le_refl _, le_refl _, fun _ _ _ => rfl, fun _ _ => rfl⟩

theorem Extends.trans {m₁ m₂ m₃ : Memory} (h : Extends owner m₁ m₂) (h' : Extends owner m₂ m₃) :
    Extends owner m₁ m₃ where
  arrays := le_trans h.arrays h'.arrays
  tuples := le_trans h.tuples h'.tuples
  array a ha hne := by rw [h'.array a (lt_of_lt_of_le ha h.arrays) hne, h.array a ha hne]
  tuple r hr := by rw [h'.tuple r (lt_of_lt_of_le hr h.tuples), h.tuple r hr]

theorem Extends.setArray {m₁ m₂ : Memory} (h : Extends owner m₁ m₂) (refs : List ℕ) :
    Extends owner m₁ (m₂.setArray owner refs) where
  arrays := h.arrays
  tuples := h.tuples
  array a ha hne := by simp [Memory.setArray, update_of_ne hne, h.array a ha hne]
  tuple := h.tuple

theorem extends_newTuple (owner : ℕ) (memory : Memory) (op : Op) :
    Extends owner memory (memory.newTuple op).2 where
  arrays := le_refl _
  tuples := Nat.le_succ _
  array _ _ _ := rfl
  tuple r hr := by simp [newTuple, update_of_ne (ne_of_lt hr)]

theorem extends_newArray (owner : ℕ) (memory : Memory) (refs : List ℕ) :
    Extends owner memory (memory.newArray refs).2 where
  arrays := Nat.le_succ _
  tuples := le_refl _
  array a ha _ := by simp [newArray, update_of_ne (ne_of_lt ha)]
  tuple _ _ := rfl

theorem ops_setArray (memory : Memory) (address : ℕ) (refs : List ℕ) :
    (memory.setArray address refs).ops address = refs.map memory.tuple := by
  simp [ops, setArray]

theorem Extends.map_tuple {memory memory' : Memory} (h : Extends owner memory memory')
    {refs : List ℕ} (hrefs : ∀ r ∈ refs, r < memory.tuples) :
    refs.map memory'.tuple = refs.map memory.tuple :=
  map_congr_left fun r hr => h.tuple r (hrefs r hr)

end Memory

/-- The arrays of batches hold tuples that exist. -/
structure Memory.Holds (memory : Memory) (arrays : List ℕ) : Prop where
  lt : ∀ a ∈ arrays, a < memory.arrays
  refs : ∀ a ∈ arrays, ∀ r ∈ memory.array a, r < memory.tuples

theorem Memory.Extends.ops_eq (h : memory.Extends owner memory') (hholds : memory.Holds arrays)
    (howner : owner ∉ arrays) {a : ℕ} (ha : a ∈ arrays) : memory'.ops a = memory.ops a := by
  have hne : a ≠ owner := by
    rintro rfl
    exact howner ha
  rw [Memory.ops, h.array a (hholds.lt a ha) hne, h.map_tuple (hholds.refs a ha)]
  rfl

theorem Memory.Holds.extends (hholds : memory.Holds arrays) (h : memory.Extends owner memory')
    (howner : owner ∉ arrays) : memory'.Holds arrays where
  lt a ha := lt_of_lt_of_le (hholds.lt a ha) h.arrays
  refs a ha r hr := by
    have hne : a ≠ owner := by
      rintro rfl
      exact howner ha
    rw [h.array a (hholds.lt a ha) hne] at hr
    exact lt_of_lt_of_le (hholds.refs a ha r hr) h.tuples

/-! ### The queue on a memory -/

namespace PendingOps

variable {queue : Folding} {op : ℕ}

structure Contents (memory : Memory) (queue : Folding) (ops : List Op)
    (leaves : List (Text × ℕ)) : Prop where
  owned : queue.ops < memory.arrays
  ops : memory.ops queue.ops = ops
  leaves : queue.leaves = leaves
  refs : ∀ r ∈ memory.array queue.ops, r < memory.tuples

/-- The contents of a queue; the arrays of batches are not those of foldings. -/
def Represents (arrays : List ℕ) (memory : Memory) : Pending → PendingOps → Prop
  | .empty, .empty => True
  | .batch address, .batch ops => address ∈ arrays ∧ memory.ops address = ops
  | .folding queue, .folding ops leaves => queue.ops ∉ arrays ∧ Contents memory queue ops leaves
  | .replace, .replace => True
  | _, _ => False

theorem merge_represents (memory : Memory) (previous next : ℕ) (hnext : next < memory.tuples) :
    (KnightCode.Delta.merge memory previous next).map (fun result => result.2.tuple result.1) =
        merge (memory.tuple previous) (memory.tuple next) ∧
      ∀ result, KnightCode.Delta.merge memory previous next = some result →
        result.1 < result.2.tuples ∧ result.2.array = memory.array ∧
          ∀ owner, memory.Extends owner result.2 := by
  have hnew : ∀ op : Op, (memory.newTuple op).1 < (memory.newTuple op).2.tuples ∧
      (memory.newTuple op).2.array = memory.array ∧
        ∀ owner, memory.Extends owner (memory.newTuple op).2 :=
    fun op => ⟨lt_add_one _, rfl, fun owner => Memory.extends_newTuple owner memory op⟩
  unfold KnightCode.Delta.merge merge
  cases hfirst : memory.tuple previous with
  | replace value =>
    cases hsecond : memory.tuple next with
    | replace value' => exact ⟨rfl, fun _ h => by cases h⟩
    | edit path' edit =>
      cases edit with
      | set value' =>
        refine ⟨by simp [hsecond], ?_⟩
        rintro result ⟨⟩
        exact ⟨hnext, rfl, fun owner => .refl owner memory⟩
      | _ => exact ⟨rfl, fun _ h => by cases h⟩
  | edit path first =>
    cases hsecond : memory.tuple next with
    | replace value' =>
      cases first with
      | set value =>
        cases value <;> exact ⟨rfl, fun _ h => by cases h⟩
      | _ => exact ⟨rfl, fun _ h => by cases h⟩
    | edit path' edit =>
      cases edit with
      | set value' =>
        refine ⟨by simp [hsecond], ?_⟩
        rintro result ⟨⟩
        exact ⟨hnext, rfl, fun owner => .refl owner memory⟩
      | append more =>
        cases first with
        | append text =>
          refine ⟨by simp [Memory.newTuple], ?_⟩
          rintro result ⟨⟩
          exact hnew _
        | set value =>
          cases value with
          | str text =>
            refine ⟨by simp [Memory.newTuple], ?_⟩
            rintro result ⟨⟩
            exact hnew _
          | _ => exact ⟨rfl, fun _ h => by cases h⟩
        | _ => exact ⟨rfl, fun _ h => by cases h⟩
      | _ =>
        cases first with
        | set value => cases value <;> exact ⟨rfl, fun _ h => by cases h⟩
        | _ => exact ⟨rfl, fun _ h => by cases h⟩

structure SameFold (memory : Memory) (queue : Folding)
    (result : Bool × Memory × Folding) (byValue : Bool × List Op × List (Text × ℕ)) : Prop where
  merged : result.1 = byValue.1
  ops : result.2.2.ops = queue.ops
  kept : memory.Extends queue.ops result.2.1
  contents : Contents result.2.1 result.2.2 byValue.2.1 byValue.2.2

theorem Contents.length (h : Contents memory queue ops leaves) :
    (memory.array queue.ops).length = ops.length := by
  rw [← h.ops, Memory.ops, length_map]

theorem mergeLeaf_represents (h : Contents memory queue ops leaves)
    (hop : op < memory.tuples) (path : Path) :
    SameFold memory queue (KnightCode.Delta.mergeLeaf path op memory queue)
      (mergeLeaf path (memory.tuple op) ops leaves) := by
  have hlength := h.length
  obtain ⟨howned, rfl, rfl, hrefs⟩ := h
  have hunmerged : SameFold memory queue
      (false, memory, { queue with
        leaves := Assoc.set (pathKey path) (memory.array queue.ops).length queue.leaves })
      (false, memory.ops queue.ops,
        Assoc.set (pathKey path) (memory.ops queue.ops).length queue.leaves) :=
    ⟨rfl, rfl, .refl _ _, howned, rfl, by rw [hlength], hrefs⟩
  cases hget : Assoc.get (pathKey path) queue.leaves with
  | none => simpa [KnightCode.Delta.mergeLeaf, mergeLeaf, hget] using hunmerged
  | some position =>
    cases hprevious : (memory.array queue.ops)[position]? with
    | none =>
      have hnone : (memory.ops queue.ops)[position]? = none := by
        rw [Memory.ops, getElem?_map, hprevious]
        rfl
      simpa [KnightCode.Delta.mergeLeaf, mergeLeaf, hget, hprevious, hnone] using hunmerged
    | some previous =>
      have hsome : (memory.ops queue.ops)[position]? = some (memory.tuple previous) := by
        rw [Memory.ops, getElem?_map, hprevious]
        rfl
      obtain ⟨hmerge, hresult⟩ := merge_represents memory previous op hop
      cases hmerged : KnightCode.Delta.merge memory previous op with
      | none =>
        rw [hmerged] at hmerge
        have hnone : merge (memory.tuple previous) (memory.tuple op) = none := hmerge.symm
        simpa [KnightCode.Delta.mergeLeaf, mergeLeaf, hget, hprevious, hsome, hmerged, hnone]
          using hunmerged
      | some result =>
        rw [hmerged] at hmerge
        have hvalue : merge (memory.tuple previous) (memory.tuple op) =
            some (result.2.tuple result.1) := hmerge.symm
        obtain ⟨hlt, harray, hextends⟩ := hresult result hmerged
        have hkept := hextends queue.ops
        have heq : KnightCode.Delta.mergeLeaf path op memory queue =
            (true, result.2.setArray queue.ops
              ((result.2.array queue.ops).set position result.1), queue) := by
          simp [KnightCode.Delta.mergeLeaf, hget, hprevious, hmerged]
        have heq' : mergeLeaf path (memory.tuple op) (memory.ops queue.ops) queue.leaves =
            (true, (memory.ops queue.ops).set position (result.2.tuple result.1),
              queue.leaves) := by
          simp [mergeLeaf, hget, hsome, hvalue]
        rw [heq, heq']
        refine ⟨rfl, rfl, hkept.setArray _, lt_of_lt_of_le howned hkept.arrays, ?_, rfl,
          fun r hr => ?_⟩
        · rw [Memory.ops_setArray, map_set, harray, hkept.map_tuple hrefs]
          rfl
        · simp only [Memory.setArray, update_self, harray] at hr
          obtain hr | rfl := mem_or_eq_of_mem_set hr
          · exact lt_of_lt_of_le (hrefs r hr) hkept.tuples
          · exact hlt

theorem foldOp_represents (h : Contents memory queue ops leaves) (hop : op < memory.tuples) :
    SameFold memory queue (KnightCode.Delta.foldOp op memory queue)
      (foldOp (memory.tuple op) ops leaves) := by
  have hmergeLeaf := mergeLeaf_represents h hop
  have hstructural : SameFold memory queue (false, memory, { queue with leaves := [] })
      (false, ops, []) := ⟨rfl, rfl, .refl _ _, h.owned, h.ops, rfl, h.refs⟩
  cases htuple : memory.tuple op with
  | replace value =>
    simp only [KnightCode.Delta.foldOp, foldOp, htuple]
    refine ⟨rfl, rfl, (Memory.Extends.refl _ _).setArray _, h.owned, ?_, rfl, fun r hr => ?_⟩
    · exact Memory.ops_setArray _ _ _
    · simp [Memory.setArray] at hr
  | edit path edit =>
    rw [htuple] at hmergeLeaf
    cases edit with
    | append text => simpa only [KnightCode.Delta.foldOp, foldOp, htuple] using hmergeLeaf path
    | set value =>
      simp only [KnightCode.Delta.foldOp, foldOp, htuple]
      split_ifs
      · exact hmergeLeaf path
      · exact hstructural
    | _ => simpa only [KnightCode.Delta.foldOp, foldOp, htuple] using hstructural

/-- The foldings with the array `owner` and their contents, or two that overflowed. -/
def SameFolding (memory : Memory) (owner : ℕ) :
    Option Folding → Option (List Op × List (Text × ℕ)) → Prop
  | none, none => True
  | some queue, some (ops, leaves) => queue.ops = owner ∧ Contents memory queue ops leaves
  | _, _ => False

theorem fold_represents {refs : List ℕ} (h : Contents memory queue ops leaves)
    (hrefs : ∀ r ∈ refs, r < memory.tuples) :
    memory.Extends queue.ops (KnightCode.Delta.fold refs memory queue).1 ∧
      SameFolding (KnightCode.Delta.fold refs memory queue).1 queue.ops
        (KnightCode.Delta.fold refs memory queue).2 (fold (refs.map memory.tuple) ops leaves) := by
  induction refs generalizing memory queue ops leaves with
  | nil => exact ⟨.refl _ _, rfl, h⟩
  | cons op refs ih =>
    have hold := hrefs op mem_cons_self
    obtain ⟨hmerged, hops, hkept, hcontents⟩ := foldOp_represents h hold
    have hlater : ∀ r ∈ refs, r < memory.tuples := fun r hr => hrefs r (mem_cons_of_mem _ hr)
    rcases hop : KnightCode.Delta.foldOp op memory queue with ⟨merged, memory', queue'⟩
    rcases hvalue : foldOp (memory.tuple op) ops leaves with ⟨merged', ops', leaves'⟩
    rw [hop] at hmerged hops hkept hcontents
    rw [hvalue] at hmerged hcontents
    simp only at hmerged hops hkept hcontents
    subst hmerged
    simp only [KnightCode.Delta.fold, hop, map_cons, fold, hvalue]
    cases merged with
    | true =>
      have hrefs' : ∀ r ∈ refs, r < memory'.tuples :=
        fun r hr => lt_of_lt_of_le (hlater r hr) hkept.tuples
      obtain ⟨hext, hrest⟩ := ih hcontents hrefs'
      rw [hkept.map_tuple hlater, hops] at hrest
      exact ⟨hkept.trans (hops ▸ hext), hrest⟩
    | false =>
      rw [← hops] at hkept ⊢
      have hkept' := hkept.setArray (memory'.array queue'.ops ++ [op])
      have hcontents' : Contents (memory'.setArray queue'.ops (memory'.array queue'.ops ++ [op]))
          queue' (ops' ++ [memory.tuple op]) leaves' := by
        refine ⟨hcontents.owned, ?_, hcontents.leaves, fun r hr => ?_⟩
        · rw [Memory.ops_setArray, map_append, map_singleton, hkept.tuple op hold]
          exact congrArg (· ++ [memory.tuple op]) hcontents.ops
        · simp only [Memory.setArray, update_self] at hr
          obtain hr | hr := mem_append.mp hr
          · exact hcontents.refs r hr
          · rw [mem_singleton.mp hr]
            exact lt_of_lt_of_le hold hkept.tuples
      have hlength := hcontents'.length
      dsimp only
      rw [hlength]
      by_cases hover : MAX_PENDING_OPS < (ops' ++ [memory.tuple op]).length
      · rw [if_pos hover, if_pos hover]
        exact ⟨hkept', trivial⟩
      · rw [if_neg hover, if_neg hover]
        have hrefs' : ∀ r ∈ refs, r <
            (memory'.setArray queue'.ops (memory'.array queue'.ops ++ [op])).tuples :=
          fun r hr => lt_of_lt_of_le (hlater r hr) hkept'.tuples
        obtain ⟨hext, hrest⟩ := ih hcontents' hrefs'
        rw [hkept'.map_tuple hlater] at hrest
        exact ⟨hkept'.trans hext, hrest⟩

theorem SameFolding.represents (howner : owner ∉ arrays) {folded : Option Folding}
    {byValue : Option (List Op × List (Text × ℕ))} (h : SameFolding memory owner folded byValue) :
    Represents arrays memory (Pending.ofFold folded) (ofFold byValue) := by
  cases folded with
  | none =>
    cases byValue with
    | none => trivial
    | some result => exact h.elim
  | some queue =>
    cases byValue with
    | none => exact h.elim
    | some result =>
      obtain ⟨rfl, hcontents⟩ := h
      exact ⟨howner, hcontents⟩

variable {state : Pending} {byValue : PendingOps}

theorem push_represents (hholds : memory.Holds arrays)
    (h : Represents arrays memory state byValue) {ops : ℕ} (hops : ops ∈ arrays) :
    ∃ owner, owner ∉ arrays ∧ memory.Extends owner (state.push ops memory).1 ∧
      Represents arrays (state.push ops memory).1 (state.push ops memory).2
        (byValue.push (memory.ops ops)) := by
  have hfresh : memory.arrays ∉ arrays := fun hm => lt_irrefl _ (hholds.lt _ hm)
  have hrefl := Memory.Extends.refl memory.arrays memory
  have hnil : memory.array ops = [] ↔ memory.ops ops = [] := by simp [Memory.ops]
  unfold Pending.push push
  by_cases hempty : memory.array ops = []
  · rw [if_pos hempty, if_pos (hnil.mp hempty)]
    exact ⟨_, hfresh, hrefl, h⟩
  rw [if_neg hempty, if_neg (hempty ∘ hnil.mpr)]
  by_cases hbase : isBase (memory.ops ops) = true
  · rw [if_pos hbase, if_pos hbase]
    exact ⟨_, hfresh, hrefl, hops, rfl⟩
  rw [if_neg hbase, if_neg hbase]
  cases state with
  | empty =>
    cases byValue with
    | empty => exact ⟨_, hfresh, hrefl, hops, rfl⟩
    | _ => exact h.elim
  | replace =>
    cases byValue with
    | replace => exact ⟨_, hfresh, hrefl, trivial⟩
    | _ => exact h.elim
  | folding queue =>
    cases byValue with
    | folding folded leaves =>
      obtain ⟨howner, hcontents⟩ := h
      obtain ⟨hext, hsame⟩ := fold_represents hcontents (hholds.refs ops hops)
      exact ⟨queue.ops, howner, hext, hsame.represents howner⟩
    | _ => exact h.elim
  | batch first =>
    cases byValue with
    | batch folded =>
      obtain ⟨hfirst, rfl⟩ := h
      have hnew := Memory.extends_newArray memory.arrays memory []
      have hcontents : Contents (memory.newArray []).2 ⟨memory.arrays, []⟩ [] [] := by
        refine ⟨lt_add_one _, by simp [Memory.ops, Memory.newArray], rfl, fun r hr => ?_⟩
        simp [Memory.newArray] at hr
      have hholds' := hholds.extends hnew hfresh
      obtain ⟨hext, hsame⟩ := fold_represents hcontents (hholds'.refs first hfirst)
      have hops_first := hnew.ops_eq hholds hfresh hfirst
      rw [Memory.ops] at hops_first
      rw [hops_first] at hsame
      have hkept := hnew.trans hext
      have haddress : (memory.newArray []).1 = memory.arrays := rfl
      refine ⟨memory.arrays, hfresh, ?_⟩
      simp only [haddress]
      generalize KnightCode.Delta.fold ((memory.newArray []).2.array first) (memory.newArray []).2
        ⟨memory.arrays, []⟩ = result at hsame hkept ⊢
      obtain ⟨memory', folding⟩ := result
      cases hvalue : fold (memory.ops first) [] [] with
      | none =>
        rw [hvalue] at hsame
        cases folding with
        | none => exact ⟨hkept, trivial⟩
        | some queue => exact hsame.elim
      | some result =>
        rw [hvalue] at hsame
        cases folding with
        | none => exact hsame.elim
        | some queue =>
          obtain ⟨hqueue, hfolded⟩ := hsame
          have hheld := hholds.extends hkept hfresh
          obtain ⟨hextSecond, hsecond⟩ := fold_represents hfolded (hheld.refs ops hops)
          have hops_second := hkept.ops_eq hholds hfresh hops
          rw [Memory.ops] at hops_second
          rw [hops_second, hqueue] at hsecond
          rw [hqueue] at hextSecond
          exact ⟨hkept.trans hextSecond, hsecond.represents hfresh⟩
    | _ => exact h.elim

theorem Represents.take (h : Represents arrays memory state byValue)
    (hnone : memory.array NO_OPS = []) :
    state.take = (.replace, .empty) ∧ byValue.take = none ∨
      ∃ address, state.take = (.ops address, .empty) ∧
        byValue.take = some (memory.ops address) := by
  cases state with
  | empty =>
    cases byValue with
    | empty => exact .inr ⟨NO_OPS, rfl, by rw [Memory.ops, hnone]; rfl⟩
    | _ => exact h.elim
  | replace =>
    cases byValue with
    | replace => exact .inl ⟨rfl, rfl⟩
    | _ => exact h.elim
  | batch address =>
    cases byValue with
    | batch ops => exact .inr ⟨address, rfl, congrArg some h.2.symm⟩
    | _ => exact h.elim
  | folding queue =>
    cases byValue with
    | folding ops leaves => exact .inr ⟨queue.ops, rfl, congrArg some h.2.ops.symm⟩
    | _ => exact h.elim

theorem Represents.extends {arrays' : List ℕ} (h : Represents arrays memory state byValue)
    (hholds : memory.Holds arrays) (hext : memory.Extends owner memory')
    (hfresh : memory.arrays ≤ owner) (hsub : ∀ a ∈ arrays, a ∈ arrays')
    (hnew : ∀ a ∈ arrays', a ∈ arrays ∨ memory.arrays ≤ a) :
    Represents arrays' memory' state byValue := by
  have howner : owner ∉ arrays :=
    fun hm => lt_irrefl _ (lt_of_lt_of_le (hholds.lt _ hm) hfresh)
  cases state with
  | empty | replace => cases byValue <;> exact h
  | batch address =>
    cases byValue with
    | batch ops => exact ⟨hsub _ h.1, (hext.ops_eq hholds howner h.1).trans h.2⟩
    | _ => exact h.elim
  | folding queue =>
    cases byValue with
    | folding ops leaves =>
      obtain ⟨hout, hcontents⟩ := h
      have harray : memory'.array queue.ops = memory.array queue.ops := by
        apply hext.array _ hcontents.owned
        rintro rfl
        exact lt_irrefl _ (lt_of_lt_of_le hcontents.owned hfresh)
      refine ⟨fun hin => ?_, lt_of_lt_of_le hcontents.owned hext.arrays, ?_, hcontents.leaves, ?_⟩
      · obtain hin | hle := hnew _ hin
        · exact hout hin
        · exact lt_irrefl _ (lt_of_lt_of_le hcontents.owned hle)
      · rw [Memory.ops, harray, hext.map_tuple hcontents.refs]
        exact hcontents.ops
      · rw [harray]
        exact fun r hr => lt_of_lt_of_le (hcontents.refs r hr) hext.tuples
    | _ => exact h.elim

end PendingOps

/-! ### Runs of the queue -/

/-- One state, the queue of one of its consumers and the memory they share with the others. -/
structure PendingWorld where
  memory : Memory
  pending : Pending
  arrays : List ℕ
  tuples : List ℕ
  pushed : List Op
  /-- The value the pushed operations make. -/
  current : Json
  /-- What the consumer makes of the operations it took. -/
  consumer : Except DeltaError Json

namespace PendingWorld
variable {value : Json} {world : PendingWorld}

def init (value : Json) : PendingWorld where
  memory := { array := fun _ => [], tuple := fun _ => .replace .null, arrays := 1, tuples := 0 }
  pending := .empty
  arrays := [NO_OPS]
  tuples := []
  pushed := []
  current := value
  consumer := .ok value

/-- The consumer applies what it is handed over. -/
def take (world : PendingWorld) : PendingWorld :=
  match world.pending.take with
  | (.ops ops, pending) =>
    { world with
      pending
      consumer := world.consumer.bind fun value => applyOps value (world.memory.ops ops) }
  | (.replace, pending) => { world with pending, consumer := .ok world.current }

inductive Act
  | tuple (op : Op)
  | array (refs : List ℕ)
  | push (ops : ℕ)
  | take

/-- A batch is any array of tuples, both perhaps shared; its operations apply to the current value,
along canonical paths. -/
inductive Step : PendingWorld → Act → PendingWorld → Prop
  | tuple (world : PendingWorld) (op : Op) :
    Step world (.tuple op)
      { world with
        memory := (world.memory.newTuple op).2
        tuples := (world.memory.newTuple op).1 :: world.tuples }
  | array (world : PendingWorld) (refs : List ℕ) (h : ∀ ref ∈ refs, ref ∈ world.tuples) :
    Step world (.array refs)
      { world with
        memory := (world.memory.newArray refs).2
        arrays := (world.memory.newArray refs).1 :: world.arrays }
  | push (world : PendingWorld) (ops : ℕ) (next : Json) (h : ops ∈ world.arrays)
      (hrun : applyCanonical world.current (world.memory.ops ops) = some next) :
    Step world (.push ops)
      { world with
        memory := (world.pending.push ops world.memory).1
        pending := (world.pending.push ops world.memory).2
        pushed := world.pushed ++ world.memory.ops ops
        current := next }
  | take (world : PendingWorld) : Step world .take world.take

def system (value : Json) : System PendingWorld Act where
  init := (· = init value)
  step := Step

structure Inv (value : Json) (world : PendingWorld) : Prop where
  noOps : NO_OPS ∈ world.arrays ∧ world.memory.array NO_OPS = []
  holds : world.memory.Holds world.arrays
  tuples : ∀ r ∈ world.tuples, r < world.memory.tuples
  pushed : applyOps value world.pushed = .ok world.current
  consumer : ∃ base queue, world.consumer = .ok base ∧
    PendingOps.Represents world.arrays world.memory world.pending queue ∧
      queue.Leads base world.current

/-- What batches are made of does not change. -/
structure Kept (world world' : PendingWorld) : Prop where
  arrays : ∀ a ∈ world.arrays, a ∈ world'.arrays ∧ world'.memory.array a = world.memory.array a
  tuples : ∀ r ∈ world.tuples, r ∈ world'.tuples ∧ world'.memory.tuple r = world.memory.tuple r

theorem Kept.refl (world : PendingWorld) : Kept world world :=
  ⟨fun _ ha => ⟨ha, rfl⟩, fun _ hr => ⟨hr, rfl⟩⟩

theorem Kept.trans {w₁ w₂ w₃ : PendingWorld} (h : Kept w₁ w₂) (h' : Kept w₂ w₃) : Kept w₁ w₃ where
  arrays a ha := by
    obtain ⟨ha₂, heq⟩ := h.arrays a ha
    obtain ⟨ha₃, heq'⟩ := h'.arrays a ha₂
    exact ⟨ha₃, heq'.trans heq⟩
  tuples r hr := by
    obtain ⟨hr₂, heq⟩ := h.tuples r hr
    obtain ⟨hr₃, heq'⟩ := h'.tuples r hr₂
    exact ⟨hr₃, heq'.trans heq⟩

theorem inv_init (value : Json) : Inv value (init value) where
  noOps := ⟨mem_singleton_self _, rfl⟩
  holds := by
    constructor
    · intro a ha
      rw [mem_singleton.mp ha]
      exact one_pos
    · intro a _ r hr
      cases hr
  tuples _ hr := by cases hr
  pushed := rfl
  consumer := ⟨value, .empty, rfl, trivial, rfl⟩

theorem Inv.take_consumer (h : Inv value world) : world.take.consumer = .ok world.current := by
  obtain ⟨base, queue, hbase, hrepresents, hleads⟩ := h.consumer
  obtain ⟨hstate, -⟩ | ⟨address, hstate, hvalue⟩ := hrepresents.take h.noOps.2
  · rw [PendingWorld.take, hstate]
  · rw [PendingWorld.take, hstate]
    dsimp only
    rw [hbase]
    exact applyOps_of_canonical (PendingOps.take_leads hleads hvalue)

theorem step_inv {world' : PendingWorld} {act : Act} (h : Inv value world)
    (hstep : Step world act world') : Inv value world' ∧ Kept world world' := by
  obtain ⟨base, queue, hbase, hrepresents, hleads⟩ := h.consumer
  cases hstep with
  | tuple op =>
    have hext := Memory.extends_newTuple world.memory.arrays world.memory op
    refine ⟨⟨h.noOps, h.holds.extends hext ?_, ?_, h.pushed, base, queue, hbase, ?_, hleads⟩, ?_⟩
    · exact fun hm => lt_irrefl _ (h.holds.lt _ hm)
    · intro r hr
      obtain rfl | hr := mem_cons.mp hr
      · exact lt_add_one _
      · exact Nat.lt_succ_of_lt (h.tuples r hr)
    · exact hrepresents.extends h.holds hext (le_refl _) (fun _ ha => ha)
        fun _ ha => .inl ha
    · refine ⟨fun a ha => ⟨ha, rfl⟩, fun r hr => ⟨mem_cons_of_mem _ hr, ?_⟩⟩
      exact hext.tuple r (h.tuples r hr)
  | array refs hrefs =>
    have hext := Memory.extends_newArray world.memory.arrays world.memory refs
    have hfresh : world.memory.arrays ∉ world.arrays :=
      fun hm => lt_irrefl _ (h.holds.lt _ hm)
    have hold : ∀ a ∈ world.arrays,
        (world.memory.newArray refs).2.array a = world.memory.array a :=
      fun a ha => hext.array a (h.holds.lt a ha) fun he => hfresh (he ▸ ha)
    have hholds := h.holds.extends hext hfresh
    refine ⟨⟨⟨mem_cons_of_mem _ h.noOps.1, ?_⟩, ?_, h.tuples, h.pushed, base, queue, hbase,
      ?_, hleads⟩, ?_⟩
    · rw [hold _ h.noOps.1]
      exact h.noOps.2
    · constructor
      · intro a ha
        obtain rfl | ha := mem_cons.mp ha
        · exact lt_add_one _
        · exact hholds.lt a ha
      · intro a ha r hr
        obtain rfl | ha := mem_cons.mp ha
        · have hnew : (world.memory.newArray refs).2.array world.memory.arrays = refs := by
            simp [Memory.newArray]
          exact h.tuples r (hrefs r (hnew ▸ hr))
        · exact hholds.refs a ha r hr
    · apply hrepresents.extends h.holds hext (le_refl _) fun _ ha => mem_cons_of_mem _ ha
      intro a ha
      obtain rfl | ha := mem_cons.mp ha
      · exact .inr (le_refl _)
      · exact .inl ha
    · exact ⟨fun a ha => ⟨mem_cons_of_mem _ ha, hold a ha⟩, fun r hr => ⟨hr, rfl⟩⟩
  | push ops next hops hrun =>
    obtain ⟨owner, howner, hext, hnext⟩ := PendingOps.push_represents h.holds hrepresents hops
    have hold : ∀ a ∈ world.arrays,
        (world.pending.push ops world.memory).1.array a = world.memory.array a :=
      fun a ha => hext.array a (h.holds.lt a ha) fun he => howner (he ▸ ha)
    refine ⟨⟨⟨h.noOps.1, ?_⟩, h.holds.extends hext howner, ?_, ?_, base, _, hbase, hnext,
      PendingOps.push_leads hleads hrun⟩, ?_⟩
    · rw [hold _ h.noOps.1]
      exact h.noOps.2
    · exact fun r hr => lt_of_lt_of_le (h.tuples r hr) hext.tuples
    · rw [applyOps_append h.pushed]
      exact applyOps_of_canonical hrun
    · exact ⟨fun a ha => ⟨ha, hold a ha⟩, fun r hr => ⟨hr, hext.tuple r (h.tuples r hr)⟩⟩
  | take =>
    have hconsumer := h.take_consumer
    obtain ⟨hmem, harr, htup, hpushed, hcur, hempty⟩ : world.take.memory = world.memory ∧
        world.take.arrays = world.arrays ∧ world.take.tuples = world.tuples ∧
        world.take.pushed = world.pushed ∧ world.take.current = world.current ∧
        world.take.pending = .empty := by
      unfold PendingWorld.take Pending.take
      cases world.pending <;> exact ⟨rfl, rfl, rfl, rfl, rfl, rfl⟩
    refine ⟨⟨?_, ?_, ?_, ?_, world.current, .empty, hconsumer, ?_, hcur.symm⟩, ?_⟩
    · rw [hmem, harr]
      exact h.noOps
    · rw [hmem, harr]
      exact h.holds
    · rw [hmem, htup]
      exact h.tuples
    · rw [hpushed, hcur]
      exact h.pushed
    · rw [hempty]
      trivial
    · constructor
      · intro a ha
        rw [harr, hmem]
        exact ⟨ha, rfl⟩
      · intro r hr
        rw [htup, hmem]
        exact ⟨hr, rfl⟩

theorem reachable_inv (h : (system value).Reachable world) : Inv value world := by
  refine System.ReachableBy.invariant (I := Inv value) ?_
    (fun s a t hinv _ hstep => (step_inv hinv hstep).1) h
  rintro s rfl
  exact inv_init value

/-- Whenever the consumer takes, it has the value of all pushed operations then; and no array or
tuple of a batch ever changes. -/
theorem pending_folds {value : Json} {world : PendingWorld} (h : (system value).Reachable world) :
    world.take.consumer = applyOps value world.pushed ∧
      applyOps value world.pushed = .ok world.current ∧
      ∀ later, (system value).Steps (fun _ _ => True) world later → Kept world later := by
  have hinv := reachable_inv h
  refine ⟨?_, hinv.pushed, fun later hsteps => ?_⟩
  · rw [hinv.take_consumer, hinv.pushed]
  · exact hsteps.relation Kept.refl (fun _ _ _ => Kept.trans)
      (fun s a t hs _ hstep => step_inv hs hstep) hinv

/-- Two appends to one text, merged while they wait. -/
theorem pending_folds_appends : ∃ world : PendingWorld,
    world.pending = .folding ⟨3, [(pathKey [.key (ascii "t")], 0)]⟩ ∧
      world.memory.ops 3 = [.edit [.key (ascii "t")] (.append (ascii "xy"))] ∧
      world.take.consumer = .ok (.obj [(ascii "t", .str (ascii "xy"))]) := by
  have h₀ : (system (.obj [(ascii "t", .str [])])).Reachable (init (.obj [(ascii "t", .str [])])) :=
    ⟨_, rfl, .refl _⟩
  have h₁ := h₀.steps (.single
    (Step.tuple _ (.edit [.key (ascii "t")] (.append (ascii "x")))) trivial)
  have h₂ := h₁.steps (.single
    (Step.tuple _ (.edit [.key (ascii "t")] (.append (ascii "y")))) trivial)
  have h₃ := h₂.steps (.single (Step.array _ [0] (by decide)) trivial)
  have h₄ := h₃.steps (.single (Step.array _ [1] (by decide)) trivial)
  have h₅ := h₄.steps (.single (Step.push _ 1 _ (by decide) rfl) trivial)
  have hreach := h₅.steps (.single (Step.push _ 2 _ (by decide) rfl) trivial)
  exact ⟨_, rfl, rfl, (pending_folds hreach).1⟩

end PendingWorld

end KnightCode.Delta
