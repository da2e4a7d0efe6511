import KnightCode.Delta.CodecRoundTrip
import KnightCode.Delta.Pending

/-!
# The pending queue by value

A leaf operation is merged into an earlier position. That is sound because every operation since
then is a leaf on another path: it commutes with the merged one, or it puts a primitive above it,
and then nothing could have been written there any more. So the pending operations always lead from
what the consumer has to the current value, whatever is pushed and taken.

The queue here has its batches as lists. A batch is never changed once it was received, so the queue
on a memory of arrays does what this one does on their contents.
-/

namespace KnightCode.Delta

open List Option

variable {root next current : Json} {path : Path} {position : ℕ}

/-! ### Runs of canonical operations -/

def Op.canonical : Op → Json → Bool
  | .replace _, _ => true
  | .edit path _, root => Json.canonical path root

/-- Operations applied in order, every path canonical where it is used. -/
def applyCanonical (root : Json) : List Op → Option Json
  | [] => some root
  | op :: ops =>
    if op.canonical root then (applyOp root op).toOption.bind fun next => applyCanonical next ops
    else none

variable {ops : List Op} {op : Op}

theorem applyCanonical_cons :
    applyCanonical root (op :: ops) = some next ↔
      ∃ mid, (applyOp root op = .ok mid ∧ op.canonical root = true) ∧
        applyCanonical mid ops = some next := by
  by_cases h : op.canonical root = true
  · rw [applyCanonical, if_pos h]
    cases happly : applyOp root op <;> simp [Except.toOption, h]
  · rw [applyCanonical, if_neg h]
    simp [h]

theorem applyCanonical_append {ops' : List Op} :
    applyCanonical root (ops ++ ops') = some next ↔
      ∃ mid, applyCanonical root ops = some mid ∧ applyCanonical mid ops' = some next := by
  induction ops generalizing root with
  | nil => simp [applyCanonical]
  | cons op ops ih =>
    rw [cons_append, applyCanonical_cons]
    constructor
    · rintro ⟨first, hfirst, hrest⟩
      obtain ⟨mid, hmid, hnext⟩ := ih.mp hrest
      exact ⟨mid, applyCanonical_cons.mpr ⟨first, hfirst, hmid⟩, hnext⟩
    · rintro ⟨mid, hmid, hnext⟩
      obtain ⟨first, hfirst, hrest⟩ := applyCanonical_cons.mp hmid
      exact ⟨first, hfirst, ih.mpr ⟨mid, hrest, hnext⟩⟩

theorem applyOps_of_canonical (h : applyCanonical root ops = some next) :
    applyOps root ops = .ok next := by
  induction ops generalizing root with
  | nil =>
    cases h
    rfl
  | cons op ops ih =>
    obtain ⟨mid, ⟨hmid, -⟩, hnext⟩ := applyCanonical_cons.mp h
    have hrest := ih hnext
    simp only [applyOps, foldlM_cons, hmid, bind, Except.bind] at hrest ⊢
    exact hrest

theorem applyCanonical_base (h : isBase ops = true) (root root' : Json) :
    applyCanonical root ops = applyCanonical root' ops := by
  cases ops with
  | nil => cases h
  | cons op ops =>
    cases op with
    | replace value => rfl
    | edit path edit => cases h

/-! ### Merging a leaf operation -/

def LeafElsewhere (path : Path) (op : Op) : Prop :=
  ∃ path' edit, op = .edit path' edit ∧ edit.isLeaf = true ∧ path ≠ path'

theorem blocked_applyCanonical (hops : ∀ op ∈ ops, LeafElsewhere path op)
    (h : Json.Blocked path (some root)) (hrun : applyCanonical root ops = some next) :
    Json.Blocked path (some next) := by
  induction ops generalizing root with
  | nil =>
    cases hrun
    exact h
  | cons op ops ih =>
    obtain ⟨mid, hmid, hnext⟩ := applyCanonical_cons.mp hrun
    obtain ⟨path', edit, rfl, hleaf, -⟩ := hops _ mem_cons_self
    have hwrite := ((applyOp_leaf hleaf).mp hmid).2
    have hblocked := Json.blocked_writeAt (Edit.leafWrite hleaf) h hwrite
    exact ih (fun op hop => hops op (mem_cons_of_mem _ hop)) hblocked hnext

/-- A write at a path that can still be made after leaf operations elsewhere can be made before
them. -/
theorem applyCanonical_writeAt {f : Option Json → Option Json}
    (hops : ∀ op ∈ ops, LeafElsewhere path op) {old : Json}
    (hold : Json.lookup path (some root) = some old) (hprim : old.isPrimitive = true)
    (hrun : applyCanonical root ops = some current)
    (hwrite : Json.writeAt f path (some current) = some next) :
    ∃ other, Json.writeAt f path (some root) = some other ∧
      applyCanonical other ops = some next := by
  induction ops generalizing root with
  | nil =>
    cases hrun
    exact ⟨next, hwrite, rfl⟩
  | cons op ops ih =>
    obtain ⟨mid, hmid, hcurrent⟩ := applyCanonical_cons.mp hrun
    obtain ⟨path', edit, rfl, hleaf, hne⟩ := hops _ mem_cons_self
    have hrest : ∀ op ∈ ops, LeafElsewhere path op :=
      fun op hop => hops op (mem_cons_of_mem _ hop)
    obtain ⟨hvalid, hstep⟩ := (applyOp_leaf hleaf).mp hmid
    obtain hblocked | ⟨hkeep, hcomm⟩ :=
      Json.writeAt_comm (f := f) (Edit.leafWrite hleaf) hne hold hprim hstep
    · have hnever := Json.writeAt_blocked (f := f) (blocked_applyCanonical hrest hblocked hcurrent)
      rw [hnever] at hwrite
      cases hwrite
    · obtain ⟨mid', hmid', hnext⟩ := ih hrest hkeep hcurrent
      obtain ⟨value, hvalue, -⟩ := Json.exists_of_writeAt hmid'
      rw [hkeep] at hvalue
      obtain ⟨other, hother⟩ := Json.writeAt_of_lookup hold hvalue
      refine ⟨other, hother, applyCanonical_cons.mpr ⟨mid', ?_, hnext⟩⟩
      apply (applyOp_leaf hleaf).mpr
      exact ⟨hvalid, by rw [hcomm other hother, hmid']⟩

/-- What a merged operation writes where the earlier one could write. -/
def Edit.MergeOf (previous next merged : Edit) : Prop :=
  ∀ old value, previous.leaf old = some value → merged.leaf old = next.leaf (some value)

theorem applyCanonical_merge {previous next merged : Edit} {before after : List Op}
    (hprevious : previous.isLeaf = true) (hnext : next.isLeaf = true)
    (hmerged : merged.isLeaf = true) (hmerge : previous.MergeOf next merged)
    (hafter : ∀ op ∈ after, LeafElsewhere path op) {final : Json}
    (hrun : applyCanonical root (before ++ .edit path previous :: after) = some current)
    (hfinal : applyOp current (.edit path next) = .ok final ∧ Json.canonical path current = true) :
    applyCanonical root (before ++ .edit path merged :: after) = some final := by
  obtain ⟨start, hstart, hrun⟩ := applyCanonical_append.mp hrun
  obtain ⟨mid, hmid, hcurrent⟩ := applyCanonical_cons.mp hrun
  obtain ⟨hvalid, hwrite⟩ := (applyOp_leaf hprevious).mp hmid
  obtain ⟨value, hvalue, hlookup⟩ := Json.exists_of_writeAt hwrite
  have hprim := Edit.leafWrite hprevious _ _ hvalue
  obtain ⟨-, hlast⟩ := (applyOp_leaf hnext).mp hfinal
  obtain ⟨other, hother, hrest⟩ :=
    applyCanonical_writeAt hafter hlookup hprim hcurrent hlast
  have htwo : Json.writeAt merged.leaf path (some start) = some other := by
    rw [← hother, Json.writeAt_writeAt hwrite]
    apply Json.writeAt_congr
    rw [hvalue, hmerge _ _ hvalue]
    rfl
  have hvalid' : assertValidOp (.edit path merged) = .ok () := by
    have h := assertValidOp_ok.mp hvalid
    apply assertValidOp_ok.mpr
    refine ⟨h.safe, fun _ => h.nonempty ?_, fun p hp => ?_⟩
    · cases previous <;> first | rfl | cases hprevious
    · rw [hp] at hmerged
      cases hmerged
  apply applyCanonical_append.mpr
  refine ⟨start, hstart, applyCanonical_cons.mpr ⟨other, ?_, hrest⟩⟩
  exact (applyOp_leaf hmerged).mpr ⟨hvalid', htwo⟩

structure LastLeaf (path : Path) (position : ℕ) (ops : List Op) : Prop where
  leaf : ∃ edit, ops[position]? = some (.edit path edit) ∧ edit.isLeaf = true
  later : ∀ j op, position < j → ops[j]? = some op → LeafElsewhere path op

theorem LastLeaf.push (h : LastLeaf path position ops) (hop : LeafElsewhere path op) :
    LastLeaf path position (ops ++ [op]) := by
  obtain ⟨edit, hedit, hleaf⟩ := h.leaf
  obtain ⟨hlt, -⟩ := List.getElem?_eq_some_iff.mp hedit
  refine ⟨⟨edit, by rw [getElem?_append_left hlt, hedit], hleaf⟩, ?_⟩
  intro j op' hj hop'
  by_cases hjlt : j < ops.length
  · rw [getElem?_append_left hjlt] at hop'
    exact h.later j op' hj hop'
  · rw [getElem?_append_right (not_lt.mp hjlt)] at hop'
    have hmem := mem_of_getElem? hop'
    rw [mem_singleton.mp hmem]
    exact hop

theorem lastLeaf_push {edit : Edit} (hleaf : edit.isLeaf = true) (ops : List Op) :
    LastLeaf path ops.length (ops ++ [.edit path edit]) := by
  refine ⟨⟨edit, by simp, hleaf⟩, ?_⟩
  intro j op hj hop
  rw [getElem?_eq_none (by simp; omega)] at hop
  cases hop

theorem LastLeaf.set {path' : Path} {position' : ℕ} {merged : Edit} (hleaf : merged.isLeaf = true)
    (h : LastLeaf path position ops) (h' : LastLeaf path' position' ops) :
    LastLeaf path' position' (ops.set position (.edit path merged)) := by
  obtain ⟨edit, hedit, -⟩ := h.leaf
  obtain ⟨edit', hedit', hleaf'⟩ := h'.leaf
  obtain ⟨hlt, -⟩ := List.getElem?_eq_some_iff.mp hedit
  constructor
  · by_cases hpos : position = position'
    · subst hpos
      have hpath : path = path' := by
        rw [hedit] at hedit'
        cases hedit'
        rfl
      exact ⟨merged, by simp [hlt, hpath], hleaf⟩
    · exact ⟨edit', by rw [getElem?_set_ne hpos, hedit'], hleaf'⟩
  · intro j op hj hop
    by_cases hpos : position = j
    · subst hpos
      obtain ⟨path'', edit'', heq, -, hne⟩ := h'.later position _ hj hedit
      cases heq
      rw [getElem?_set_self hlt] at hop
      cases hop
      exact ⟨path, merged, rfl, hleaf, hne⟩
    · rw [getElem?_set_ne hpos] at hop
      exact h'.later j op hj hop

theorem LastLeaf.run_set (h : LastLeaf path position ops) {previous next merged : Edit}
    {final : Json} (hrun : applyCanonical root ops = some current)
    (hedit : ops[position]? = some (.edit path previous)) (hprevious : previous.isLeaf = true)
    (hnext : next.isLeaf = true) (hmerged : merged.isLeaf = true)
    (hmerge : previous.MergeOf next merged)
    (hfinal : applyOp current (.edit path next) = .ok final ∧ Json.canonical path current = true) :
    applyCanonical root (ops.set position (.edit path merged)) = some final := by
  obtain ⟨hlt, hget⟩ := List.getElem?_eq_some_iff.mp hedit
  have hsplit : ops = ops.take position ++ .edit path previous :: ops.drop (position + 1) := by
    rw [← hget, getElem_cons_drop, take_append_drop]
  have hafter : ∀ op ∈ ops.drop (position + 1), LeafElsewhere path op := by
    intro op hop
    obtain ⟨j, hj⟩ := mem_iff_getElem?.mp hop
    rw [getElem?_drop] at hj
    exact h.later _ op (by omega) hj
  rw [hsplit] at hrun
  rw [set_eq_take_append_cons_drop, if_pos hlt]
  exact applyCanonical_merge hprevious hnext hmerged hmerge hafter hrun hfinal

/-! ### The queue -/

inductive PendingOps
  | empty
  | batch (ops : List Op)
  | folding (ops : List Op) (leaves : List (Text × ℕ))
  | replace

namespace PendingOps

variable {leaves : List (Text × ℕ)} {queue : PendingOps}

/-- What is handed over: operations, or `none` for a replacement with the current value. -/
abbrev Take := Option (List Op)

/-- `next` folded into `previous`, which is on the same path. -/
def merge : Op → Op → Option Op
  | _, .edit path (.set value) => some (.edit path (.set value))
  | .edit path (.append text), .edit _ (.append more) => some (.edit path (.append (text ++ more)))
  | .edit path (.set (.str text)), .edit _ (.append more) =>
    some (.edit path (.set (.str (text ++ more))))
  | _, _ => none

/-- The operations and the leaf index once a leaf operation is merged or indexed; true when it was
merged. -/
def mergeLeaf (path : Path) (op : Op) (ops : List Op) (leaves : List (Text × ℕ)) :
    Bool × List Op × List (Text × ℕ) :=
  let key := pathKey path
  let merged : Option (ℕ × Op) := do
    let position ← Assoc.get key leaves
    let previous ← ops[position]?
    let op ← merge previous op
    return (position, op)
  match merged with
  | some (position, op) => (true, ops.set position op, leaves)
  | none => (false, ops, Assoc.set key ops.length leaves)

def foldOp (op : Op) (ops : List Op) (leaves : List (Text × ℕ)) :
    Bool × List Op × List (Text × ℕ) :=
  match op with
  | .replace _ => (false, [], [])
  | .edit path (.append _) => mergeLeaf path op ops leaves
  | .edit path (.set value) =>
    if value.isPrimitive then mergeLeaf path op ops leaves else (false, ops, [])
  | _ => (false, ops, [])

/-- Fold operations; nothing once the queue overflowed. -/
def fold : List Op → List Op → List (Text × ℕ) → Option (List Op × List (Text × ℕ))
  | [], ops, leaves => some (ops, leaves)
  | op :: rest, ops, leaves =>
    match foldOp op ops leaves with
    | (true, ops, leaves) => fold rest ops leaves
    | (false, ops, leaves) =>
      if MAX_PENDING_OPS < (ops ++ [op]).length then none else fold rest (ops ++ [op]) leaves

def ofFold : Option (List Op × List (Text × ℕ)) → PendingOps
  | some (ops, leaves) => .folding ops leaves
  | none => .replace

/-- Queue the operations of one commit. -/
def push (ops : List Op) (queue : PendingOps) : PendingOps :=
  if ops = [] then queue
  else if isBase ops then .batch ops
  else
    match queue with
    | .empty => .batch ops
    | .batch first =>
      ofFold ((fold first [] []).bind fun (folded, leaves) => fold ops folded leaves)
    | .folding folded leaves => ofFold (fold ops folded leaves)
    | .replace => .replace

def size : PendingOps → ℕ
  | .empty => 0
  | .batch ops => ops.length
  | .folding ops _ => ops.length
  | .replace => 1

/-- What is handed over; the queue is empty then. -/
def take : PendingOps → Take
  | .empty => some []
  | .batch ops => some ops
  | .folding ops _ => some ops
  | .replace => none

/-! ### What is pending leads to the current value -/

/-- What the queue accumulates leads from `root` to `current`. -/
structure FoldsTo (root current : Json) (ops : List Op) (leaves : List (Text × ℕ)) : Prop where
  run : applyCanonical root ops = some current
  leaves : ∀ path position, Assoc.get (pathKey path) leaves = some position →
    LastLeaf path position ops

variable {root : Json}

theorem FoldsTo.pushOp {leaves' : List (Text × ℕ)} (h : FoldsTo root current ops leaves)
    (hnext : applyOp current op = .ok next ∧ op.canonical current = true)
    (hleaves : ∀ path position, Assoc.get (pathKey path) leaves' = some position →
      LastLeaf path position (ops ++ [op])) : FoldsTo root next (ops ++ [op]) leaves' := by
  refine ⟨?_, hleaves⟩
  apply applyCanonical_append.mpr
  exact ⟨current, h.run, applyCanonical_cons.mpr ⟨next, hnext, rfl⟩⟩

/-- What an operation makes of the folding, pushed or merged. -/
def Folded (root next : Json) (op : Op) (result : Bool × List Op × List (Text × ℕ)) : Prop :=
  FoldsTo root next (if result.1 then result.2.1 else result.2.1 ++ [op]) result.2.2

theorem merge_spec {first second : Edit} {merged : Op} (hleaf : second.isLeaf = true)
    (h : merge (.edit path first) (.edit path second) = some merged) :
    ∃ edit, merged = .edit path edit ∧ edit.isLeaf = true ∧ first.MergeOf second edit := by
  cases second with
  | set value =>
    cases h
    exact ⟨_, rfl, hleaf, fun _ _ _ => rfl⟩
  | append more =>
    cases first with
    | append text =>
      cases h
      refine ⟨_, rfl, rfl, ?_⟩
      intro old value hvalue
      cases old with
      | none => cases hvalue
      | some node =>
        cases node <;> cases hvalue
        simp [Edit.leaf]
    | set start =>
      cases start with
      | str text =>
        cases h
        refine ⟨_, rfl, rfl, ?_⟩
        intro old value hvalue
        cases hvalue
        rfl
      | _ => cases h
    | _ => cases h
  | _ => cases hleaf

theorem mergeLeaf_spec {edit : Edit} (h : FoldsTo root current ops leaves)
    (hleaf : edit.isLeaf = true) (hnext : applyOp current (.edit path edit) = .ok next ∧
      (Op.edit path edit).canonical current = true) :
    Folded root next (.edit path edit) (mergeLeaf path (.edit path edit) ops leaves) := by
  have hunmerged : Folded root next (.edit path edit)
      (false, ops, Assoc.set (pathKey path) ops.length leaves) := by
    apply h.pushOp hnext
    intro path' position hget
    rw [Assoc.get_set] at hget
    split_ifs at hget with hkey
    · have hpath := pathKey_injective hkey
      subst hpath
      cases hget
      exact lastLeaf_push hleaf _
    · have hpath : path' ≠ path := fun he => hkey (by rw [he])
      exact (h.leaves path' position hget).push ⟨path, edit, rfl, hleaf, hpath⟩
  cases hget : Assoc.get (pathKey path) leaves with
  | none => simpa [mergeLeaf, hget] using hunmerged
  | some position =>
    have hlast := h.leaves path position hget
    obtain ⟨first, hfirst, hfirstLeaf⟩ := hlast.leaf
    cases hmerge : merge (.edit path first) (.edit path edit) with
    | none => simpa [mergeLeaf, hget, hfirst, hmerge] using hunmerged
    | some op =>
      obtain ⟨merged, rfl, hmergedLeaf, hmergeOf⟩ := merge_spec hleaf hmerge
      have heq : mergeLeaf path (.edit path edit) ops leaves =
          (true, ops.set position (.edit path merged), leaves) := by
        simp [mergeLeaf, hget, hfirst, hmerge]
      rw [heq]
      refine ⟨?_, fun path' position' hget' => ?_⟩
      · exact hlast.run_set h.run hfirst hfirstLeaf hleaf hmergedLeaf hmergeOf hnext
      · exact hlast.set hmergedLeaf (h.leaves path' position' hget')

theorem foldOp_spec (h : FoldsTo root current ops leaves)
    (hnext : applyOp current op = .ok next ∧ op.canonical current = true) :
    Folded root next op (foldOp op ops leaves) := by
  have hstructural : Folded root next op (false, ops, []) :=
    h.pushOp hnext fun path position hget => by cases hget
  cases op with
  | replace value =>
    have hone : applyCanonical current [.replace value] = some next :=
      applyCanonical_cons.mpr ⟨next, hnext, rfl⟩
    refine ⟨?_, fun path position hget => by cases hget⟩
    rw [← hone]
    exact applyCanonical_base rfl root current
  | edit path edit =>
    cases edit with
    | append text => exact mergeLeaf_spec h rfl hnext
    | set value =>
      cases hprim : value.isPrimitive with
      | true =>
        have hleaf : (Edit.set value).isLeaf = true := hprim
        simpa [foldOp, hprim] using mergeLeaf_spec h hleaf hnext
      | false => simpa [foldOp, hprim] using hstructural
    | _ => exact hstructural

theorem fold_spec {more : List Op} (h : FoldsTo root current ops leaves)
    (hrun : applyCanonical current more = some next) :
    ∀ folded leaves', fold more ops leaves = some (folded, leaves') →
      FoldsTo root next folded leaves' := by
  induction more generalizing current ops leaves with
  | nil =>
    cases hrun
    rintro folded leaves' ⟨⟩
    exact h
  | cons op more ih =>
    obtain ⟨mid, hmid, hnext⟩ := applyCanonical_cons.mp hrun
    have hspec := foldOp_spec h hmid
    rcases hop : foldOp op ops leaves with ⟨merged, ops', leaves''⟩
    rw [hop] at hspec
    intro folded leaves' hfold
    simp only [fold, hop] at hfold
    cases merged with
    | true => exact ih hspec hnext folded leaves' hfold
    | false =>
      obtain ⟨-, hfold⟩ := ite_none_left_eq_some.mp hfold
      exact ih hspec hnext folded leaves' hfold

/-- What is pending leads from `base` to `current`, unless it is a replacement with `current`. -/
def Leads (base current : Json) : PendingOps → Prop
  | .empty => base = current
  | .batch ops => applyCanonical base ops = some current
  | .folding ops leaves => FoldsTo base current ops leaves
  | .replace => True

variable {base : Json}

theorem leads_ofFold {folded : Option (List Op × List (Text × ℕ))}
    (h : ∀ ops leaves, folded = some (ops, leaves) → FoldsTo base next ops leaves) :
    (ofFold folded).Leads base next := by
  cases folded with
  | none => trivial
  | some result => exact h result.1 result.2 rfl

theorem foldsTo_nil (base : Json) : FoldsTo base base [] [] :=
  ⟨rfl, fun path position hget => by cases hget⟩

theorem push_leads (h : queue.Leads base current) (hrun : applyCanonical current ops = some next) :
    (queue.push ops).Leads base next := by
  unfold push
  split_ifs with hnil hbase
  · subst hnil
    cases hrun
    exact h
  · exact (applyCanonical_base hbase base current).trans hrun
  · cases queue with
    | empty =>
      cases h
      exact hrun
    | batch first =>
      apply leads_ofFold
      intro folded leaves hfold
      obtain ⟨⟨mid, midLeaves⟩, hfirst, hsecond⟩ := bind_eq_some_iff.mp hfold
      have hmid := fold_spec (foldsTo_nil base) h mid midLeaves hfirst
      exact fold_spec hmid hrun folded leaves hsecond
    | folding folded leaves =>
      exact leads_ofFold fun folded' leaves' hfold => fold_spec h hrun folded' leaves' hfold
    | replace => trivial

theorem take_leads (h : queue.Leads base current) (htake : queue.take = some ops) :
    applyCanonical base ops = some current := by
  cases queue with
  | empty =>
    cases htake
    exact congrArg some h
  | batch _ =>
    cases htake
    exact h
  | folding _ _ =>
    cases htake
    exact h.run
  | replace => cases htake

end PendingOps

end KnightCode.Delta
