import KnightCode.Session.Entries

/-!
# The tree of a session

`getTree` makes a node for every id, hangs the nodes below one another and sorts the children of
all nodes it gets to from the roots. What is reached is what hangs below a root by the links of any
entry with the node's id, and the sort ends when these links have no circle below a root.
-/

namespace KnightCode.Session

open List Option

variable {ρ : Type}

/-- A node, its children by their ids. -/
structure SessionTreeNode (ρ : Type) where
  entry : SessionEntry ρ
  children : List Ident
  label : Option Text
  labelTimestamp : Option Text

structure SessionTree (ρ : Type) where
  nodes : List (Ident × SessionTreeNode ρ)
  roots : List Ident

def newNode (labels : Labels) (entry : SessionEntry ρ) : SessionTreeNode ρ :=
  ⟨entry, [], Assoc.get entry.id labels.labelsById, Assoc.get entry.id labels.labelTimestampsById⟩

def makeNodes (labels : Labels) (entries : Entries ρ) :
    List (Ident × SessionTreeNode ρ) :=
  entries.foldl (fun nodes entry => Assoc.set entry.id (newNode labels entry) nodes) []

/-- Hang the node of an entry below its parent's. -/
def SessionTree.link (tree : SessionTree ρ) (entry : SessionEntry ρ) : SessionTree ρ :=
  if entry.parentId = .null ∨ entry.parentId = entry.id then
    { tree with roots := tree.roots ++ [entry.id] }
  else
    match Assoc.get entry.parentId tree.nodes with
    | some parent =>
      { tree with
        nodes := Assoc.set entry.parentId
          { parent with children := parent.children ++ [entry.id] } tree.nodes }
    | none => { tree with roots := tree.roots ++ [entry.id] }

def noLater : Option ℤ → Option ℤ → Bool
  | some s, some t => s ≤ t
  | _, _ => true

def sortChildren (getTime : Text → Option ℤ) (nodes : List (Ident × SessionTreeNode ρ))
    (children : List Ident) : List Ident :=
  let time := fun id => (Assoc.get id nodes).bind fun node => getTime node.entry.timestamp
  children.mergeSort fun a b => noLater (time a) (time b)

/-- The loop that sorts, with the node on top of its stack first. -/
def sortFrom (getTime : Text → Option ℤ) :
    ℕ → List (Ident × SessionTreeNode ρ) → List Ident → Option (List (Ident × SessionTreeNode ρ))
  | _, nodes, [] => some nodes
  | 0, _, _ :: _ => none
  | fuel + 1, nodes, id :: stack =>
    match Assoc.get id nodes with
    | none => sortFrom getTime fuel nodes stack
    | some node =>
      let children := sortChildren getTime nodes node.children
      sortFrom getTime fuel (Assoc.set id { node with children := children } nodes)
        (children.reverse ++ stack)

def linkEntries (entries : Entries ρ) : SessionTree ρ :=
  entries.foldl SessionTree.link ⟨makeNodes (resolveLabels entries) entries, []⟩

def getTree (getTime : Text → Option ℤ) (entries : Entries ρ) (fuel : ℕ) :
    Option (SessionTree ρ) :=
  let tree := linkEntries entries
  (sortFrom getTime fuel tree.nodes tree.roots.reverse).map fun nodes => ⟨nodes, tree.roots⟩

/-- The nodes that can be got to from the roots. -/
inductive SessionTree.Reaches (tree : SessionTree ρ) : Ident → Prop
  | root {id : Ident} (h : id ∈ tree.roots) : tree.Reaches id
  | child {id : Ident} {parentId : Ident} {node : SessionTreeNode ρ} (h : tree.Reaches parentId)
      (hnode : Assoc.get parentId tree.nodes = some node) (hid : id ∈ node.children) :
      tree.Reaches id

/-! ### The index -/

section

variable {entries : Entries ρ}

theorem get_buildEntryIndex_concat (entries : Entries ρ) (entry : SessionEntry ρ)
    (id : Ident) :
    Assoc.get id (buildEntryIndex (entries ++ [entry])) =
      if entry.id = id then some entry else Assoc.get id (buildEntryIndex entries) := by
  rw [buildEntryIndex, foldl_append]
  exact Assoc.get_set entry.id id entry _

variable {entry : SessionEntry ρ}

theorem mem_of_get_index {id : Ident} (h : Assoc.get id (buildEntryIndex entries) = some entry) :
    entry ∈ entries ∧ entry.id = id := by
  induction entries using reverseRecOn with
  | nil => cases h
  | append_singleton entries last ih =>
    rw [get_buildEntryIndex_concat] at h
    by_cases hid : last.id = id
    · rw [if_pos hid] at h
      cases h
      exact ⟨mem_append_right _ (mem_singleton_self _), hid⟩
    · rw [if_neg hid] at h
      obtain ⟨hmem, heq⟩ := ih h
      exact ⟨mem_append_left _ hmem, heq⟩

theorem get_index_isSome (h : entry ∈ entries) :
    (Assoc.get entry.id (buildEntryIndex entries)).isSome = true := by
  induction entries using reverseRecOn with
  | nil => cases h
  | append_singleton entries last ih =>
    rw [get_buildEntryIndex_concat]
    by_cases hid : last.id = entry.id
    · rw [if_pos hid]
      rfl
    · rw [if_neg hid]
      obtain h | h := mem_append.mp h
      · exact ih h
      · exact absurd (congrArg SessionEntry.id (mem_singleton.mp h)).symm hid

end

/-! ### Links -/

/-- The node of an entry is a root: it has no parent, is its own, or its parent is missing. -/
def atRoot (index : EntryIndex ρ) (entry : SessionEntry ρ) : Bool :=
  decide (entry.parentId = .null ∨ entry.parentId = entry.id) ||
    (Assoc.get entry.parentId index).isNone

def hangsBelow (index : EntryIndex ρ) (id : Ident) (entry : SessionEntry ρ) : Bool :=
  !atRoot index entry && decide (entry.parentId = id)

def Below (entries : Entries ρ) (id parentId : Ident) : Prop :=
  ∃ entry ∈ entries, entry.id = id ∧ hangsBelow (buildEntryIndex entries) parentId entry = true

/-- A node is a root, or hangs below one. -/
inductive Rooted (entries : Entries ρ) : Ident → Prop
  | root {entry : SessionEntry ρ} (hmem : entry ∈ entries)
      (h : atRoot (buildEntryIndex entries) entry = true) : Rooted entries entry.id
  | hung {id parentId : Ident} (h : Rooted entries parentId) (hid : Below entries id parentId) :
      Rooted entries id

/-- What linking some of the entries has made. -/
structure Linked (index : EntryIndex ρ) (labels : Labels) (done : Entries ρ)
    (tree : SessionTree ρ) : Prop where
  node : ∀ id, Assoc.get id tree.nodes = (Assoc.get id index).map fun entry =>
    { newNode labels entry with children := (done.filter (hangsBelow index id)).map (·.id) }
  roots : tree.roots = (done.filter (atRoot index)).map (·.id)

section

variable {entries : Entries ρ} {index : EntryIndex ρ} {labels : Labels}

theorem get_makeNodes (labels : Labels) (entries : Entries ρ) (id : Ident) :
    Assoc.get id (makeNodes labels entries) =
      (Assoc.get id (buildEntryIndex entries)).map (newNode labels) := by
  induction entries using reverseRecOn with
  | nil => rfl
  | append_singleton entries last ih =>
    rw [get_buildEntryIndex_concat, makeNodes, foldl_append]
    refine (Assoc.get_set last.id id (newNode labels last) _).trans ?_
    by_cases hid : last.id = id
    · rw [if_pos hid, if_pos hid]
      rfl
    · rw [if_neg hid, if_neg hid]
      exact ih

theorem Linked.link {done : Entries ρ} {tree : SessionTree ρ}
    (h : Linked index labels done tree) (entry : SessionEntry ρ) :
    Linked index labels (done ++ [entry]) (tree.link entry) := by
  have hroot : atRoot index entry = true →
      Linked index labels (done ++ [entry]) { tree with roots := tree.roots ++ [entry.id] } := by
    intro hat
    refine ⟨fun id => ?_, ?_⟩
    · rw [h.node id, filter_append, filter_singleton, hangsBelow, hat]
      simp
    · rw [h.roots, filter_append, filter_singleton, hat]
      simp
  rw [SessionTree.link]
  by_cases hself : entry.parentId = .null ∨ entry.parentId = entry.id
  · rw [if_pos hself]
    exact hroot (by rw [atRoot, decide_eq_true hself, Bool.true_or])
  · rw [if_neg hself]
    have hnode := h.node entry.parentId
    cases hget : Assoc.get entry.parentId index with
    | none =>
      rw [hget] at hnode
      rw [hnode]
      exact hroot (by rw [atRoot, hget, isNone_none, Bool.or_true])
    | some parent =>
      rw [hget] at hnode
      rw [hnode]
      have hnot : atRoot index entry = false := by
        rw [atRoot, decide_eq_false hself, hget]
        rfl
      refine ⟨fun id => ?_, ?_⟩
      · dsimp only [map_some]
        rw [Assoc.get_set, filter_append, filter_singleton, hangsBelow, hnot]
        by_cases hid : entry.parentId = id
        · subst hid
          rw [if_pos rfl, hget, decide_eq_true rfl, map_append]
          rfl
        · rw [if_neg hid, h.node id, decide_eq_false hid]
          simp
      · rw [h.roots, filter_append, filter_singleton, hnot]
        simp

theorem linkEntries_linked (entries : Entries ρ) :
    Linked (buildEntryIndex entries) (resolveLabels entries) entries (linkEntries entries) := by
  have hfold : ∀ rest done tree, Linked (buildEntryIndex entries) (resolveLabels entries) done tree →
      Linked (buildEntryIndex entries) (resolveLabels entries) (done ++ rest)
        (rest.foldl SessionTree.link tree) := by
    intro rest
    induction rest with
    | nil =>
      intro done tree h
      rw [append_nil]
      exact h
    | cons entry rest ih =>
      intro done tree h
      have hnext := ih (done ++ [entry]) (tree.link entry) (h.link entry)
      rw [append_assoc] at hnext
      exact hnext
  refine hfold entries [] _ ⟨fun id => ?_, rfl⟩
  rw [get_makeNodes]
  rfl

end

/-! ### The sort -/

/-- Nodes of the entries, with the children that hang below them in any order. -/
structure Shaped (entries : Entries ρ) (nodes : List (Ident × SessionTreeNode ρ)) :
    Prop where
  entry : ∀ id, (Assoc.get id nodes).map (·.entry) = Assoc.get id (buildEntryIndex entries)
  children : ∀ id node, Assoc.get id nodes = some node →
    ∀ child, child ∈ node.children ↔ Below entries child id

section

variable {entries : Entries ρ} {nodes : List (Ident × SessionTreeNode ρ)}

theorem linkEntries_shaped (entries : Entries ρ) :
    Shaped entries (linkEntries entries).nodes := by
  have hlinked := linkEntries_linked entries
  refine ⟨fun id => ?_, fun id node hnode child => ?_⟩
  · rw [hlinked.node id, Option.map_map]
    cases Assoc.get id (buildEntryIndex entries) <;> rfl
  · rw [hlinked.node id] at hnode
    obtain ⟨entry, -, rfl⟩ := map_eq_some_iff.mp hnode
    rw [List.mem_map]
    constructor
    · rintro ⟨e, he, rfl⟩
      obtain ⟨hmem, hbelow⟩ := mem_filter.mp he
      exact ⟨e, hmem, rfl, hbelow⟩
    · rintro ⟨e, hmem, rfl, hbelow⟩
      exact ⟨e, mem_filter.mpr ⟨hmem, hbelow⟩, rfl⟩

theorem Shaped.set (h : Shaped entries nodes) {id : Ident} {node : SessionTreeNode ρ}
    (hnode : Assoc.get id nodes = some node) {children : List Ident}
    (hchildren : children.Perm node.children) :
    Shaped entries (Assoc.set id { node with children := children } nodes) := by
  refine ⟨fun id' => ?_, fun id' node' hnode' child => ?_⟩
  · rw [Assoc.get_set]
    by_cases hid : id = id'
    · subst hid
      rw [if_pos rfl, ← h.entry id, hnode]
      rfl
    · rw [if_neg hid]
      exact h.entry id'
  · rw [Assoc.get_set] at hnode'
    by_cases hid : id = id'
    · subst hid
      rw [if_pos rfl] at hnode'
      cases hnode'
      exact hchildren.mem_iff.trans (h.children id node hnode child)
    · rw [if_neg hid] at hnode'
      exact h.children id' node' hnode' child

variable (getTime : Text → Option ℤ)

theorem sortChildren_perm (nodes : List (Ident × SessionTreeNode ρ)) (children : List Ident) :
    (sortChildren getTime nodes children).Perm children :=
  mergeSort_perm children _

theorem Shaped.get_of_below (h : Shaped entries nodes) {id parentId : Ident}
    (hbelow : Below entries id parentId) : ∃ node, Assoc.get parentId nodes = some node := by
  obtain ⟨entry, -, -, hhangs⟩ := hbelow
  obtain ⟨hnot, hparent⟩ := (Bool.and_eq_true_iff ..).mp hhangs
  obtain rfl := of_decide_eq_true hparent
  have hentry := h.entry entry.parentId
  cases hget : Assoc.get entry.parentId nodes with
  | some node => exact ⟨node, rfl⟩
  | none =>
    rw [hget] at hentry
    rw [atRoot, ← hentry, map_none, isNone_none, Bool.or_true] at hnot
    cases hnot

theorem sortFrom_spec {fuel : ℕ} {stack : List Ident} {nodes' : List (Ident × SessionTreeNode ρ)}
    (h : Shaped entries nodes) (hsort : sortFrom getTime fuel nodes stack = some nodes') :
    Shaped entries nodes' ∧ ∀ id ∈ stack, Acc (Below entries) id := by
  induction fuel generalizing nodes stack with
  | zero =>
    cases stack with
    | cons id stack => cases hsort
    | nil =>
      cases hsort
      exact ⟨h, fun _ hmem => (by cases hmem)⟩
  | succ fuel ih =>
    cases stack with
    | nil =>
      cases hsort
      exact ⟨h, fun _ hmem => (by cases hmem)⟩
    | cons id stack =>
      rw [sortFrom] at hsort
      cases hnode : Assoc.get id nodes with
      | none =>
        rw [hnode] at hsort
        obtain ⟨hshaped, hacc⟩ := ih h hsort
        refine ⟨hshaped, fun id' hmem => ?_⟩
        obtain rfl | hmem := mem_cons.mp hmem
        · refine Acc.intro id' fun child hbelow => ?_
          obtain ⟨node, hget⟩ := h.get_of_below hbelow
          rw [hnode] at hget
          cases hget
        · exact hacc id' hmem
      | some node =>
        rw [hnode] at hsort
        have hperm := sortChildren_perm getTime nodes node.children
        obtain ⟨hshaped, hacc⟩ := ih (h.set hnode hperm) hsort
        refine ⟨hshaped, fun id' hmem => ?_⟩
        obtain rfl | hmem := mem_cons.mp hmem
        · refine Acc.intro id' fun child hbelow => hacc child (mem_append_left _ ?_)
          rw [mem_reverse, hperm.mem_iff]
          exact (h.children id' node hnode child).mpr hbelow
        · exact hacc id' (mem_append_right _ hmem)

/-- The top of the stack is sorted with all that hangs below it, and leaves the rest. -/
def SortsOff (getTime : Text → Option ℤ) (entries : Entries ρ) (top : List Ident) : Prop :=
  ∀ nodes, Shaped entries nodes → ∃ used nodes', Shaped entries nodes' ∧ ∀ fuel stack,
    sortFrom getTime (used + fuel) nodes (top ++ stack) = sortFrom getTime fuel nodes' stack

theorem sortsOff_append {getTime : Text → Option ℤ} {top : List Ident}
    (h : ∀ id ∈ top, SortsOff getTime entries [id]) : SortsOff getTime entries top := by
  induction top with
  | nil => exact fun nodes hshaped => ⟨0, nodes, hshaped, fun fuel stack => by rw [zero_add]; rfl⟩
  | cons id top ih =>
    intro nodes hshaped
    obtain ⟨used, nodes₁, hshaped₁, hsort⟩ := h id mem_cons_self nodes hshaped
    obtain ⟨used', nodes₂, hshaped₂, hsort'⟩ :=
      ih (fun id' hmem => h id' (mem_cons_of_mem _ hmem)) nodes₁ hshaped₁
    refine ⟨used + used', nodes₂, hshaped₂, fun fuel stack => ?_⟩
    rw [add_assoc]
    exact (hsort (used' + fuel) (top ++ stack)).trans (hsort' fuel stack)

theorem sortsOff_of_acc {id : Ident} (h : Acc (Below entries) id) :
    SortsOff getTime entries [id] := by
  induction h with
  | intro id _ ih =>
    intro nodes hshaped
    cases hnode : Assoc.get id nodes with
    | none =>
      refine ⟨1, nodes, hshaped, fun fuel stack => ?_⟩
      rw [add_comm, singleton_append, sortFrom, hnode]
    | some node =>
      have hperm := sortChildren_perm getTime nodes node.children
      have hbelow : ∀ child ∈ (sortChildren getTime nodes node.children).reverse,
          SortsOff getTime entries [child] := by
        intro child hmem
        rw [mem_reverse, hperm.mem_iff] at hmem
        exact ih child ((hshaped.children id node hnode child).mp hmem)
      obtain ⟨used, nodes', hshaped', hsort⟩ := sortsOff_append hbelow _ (hshaped.set hnode hperm)
      refine ⟨used + 1, nodes', hshaped', fun fuel stack => ?_⟩
      rw [add_right_comm, singleton_append, sortFrom, hnode]
      exact hsort fuel stack

theorem exists_sortFrom_iff (h : Shaped entries nodes) (stack : List Ident) :
    (∃ fuel nodes', sortFrom getTime fuel nodes stack = some nodes') ↔
      ∀ id ∈ stack, Acc (Below entries) id := by
  constructor
  · rintro ⟨fuel, nodes', hsort⟩
    exact (sortFrom_spec getTime h hsort).2
  · intro hacc
    obtain ⟨used, nodes', -, hsort⟩ :=
      sortsOff_append (fun id hmem => sortsOff_of_acc getTime (hacc id hmem)) nodes h
    refine ⟨used, nodes', ?_⟩
    have hall := hsort 0 []
    rw [append_nil, add_zero] at hall
    rw [hall]
    rfl

end

/-! ### What is read -/

/-- A walk ends, and meets no entry twice. -/
def WalkedOnce (walk : ℕ → Option (Entries ρ)) : Prop :=
  ∃ fuel path, walk fuel = some path ∧ path.Nodup

/-- The links of the entries have no circle above the leaves and none below a root, and an entry
with no circle above it is the last of its id and hangs below a root. -/
structure Traversable (entries : Entries ρ) (leafId : LeafId) (startId : Ident) :
    Prop where
  leaf : ∀ leaf, leafId.entry entries (buildEntryIndex entries) = some leaf →
    Links.Acyclic (parentOf (buildEntryIndex entries)) leaf
  start : ∀ start, lookup (buildEntryIndex entries) startId = some start →
    Links.Acyclic (parentOf (buildEntryIndex entries)) start
  below : ∀ id, Rooted entries id → ¬ Relation.TransGen (Below entries) id id
  last : ∀ entry ∈ entries, Links.Acyclic (parentOf (buildEntryIndex entries)) entry →
    Rooted entries entry.id ∧ Assoc.get entry.id (buildEntryIndex entries) = some entry

section

variable {entries : Entries ρ}

theorem parentOf_finite (entries : Entries ρ) :
    {parent | ∃ entry, parentOf (buildEntryIndex entries) entry = some parent}.Finite := by
  refine entries.finite_toSet.subset ?_
  rintro parent ⟨entry, h⟩
  rw [parentOf, lookup] at h
  split_ifs at h
  exact (mem_of_get_index h).1

theorem walkedOnce_pathTo (entries : Entries ρ) (leaf : Option (SessionEntry ρ)) :
    WalkedOnce (fun fuel => pathTo (buildEntryIndex entries) fuel leaf) ↔
      ∀ entry, leaf = some entry → Links.Acyclic (parentOf (buildEntryIndex entries)) entry := by
  cases leaf with
  | none => exact ⟨fun _ _ h => (by cases h), fun _ => ⟨0, [], rfl, nodup_nil⟩⟩
  | some leaf =>
    constructor
    · rintro ⟨fuel, path, hpath, -⟩ entry ⟨⟩
      obtain ⟨walked, hwalk, -⟩ := map_eq_some_iff.mp hpath
      exact Links.acyclic_of_ends ⟨fuel, walked, hwalk⟩
    · intro h
      obtain ⟨fuel, walked, hwalk⟩ := Links.ends_of_acyclic (parentOf_finite entries) (h leaf rfl)
      refine ⟨fuel, walked.reverse, ?_, nodup_reverse.mpr (Links.walks_of_walk hwalk).nodup⟩
      show (Links.walk _ fuel leaf).map reverse = _
      rw [hwalk]
      rfl

theorem mem_roots {id : Ident} :
    id ∈ (linkEntries entries).roots ↔
      ∃ entry ∈ entries, entry.id = id ∧ atRoot (buildEntryIndex entries) entry = true := by
  rw [(linkEntries_linked entries).roots, List.mem_map]
  constructor
  · rintro ⟨entry, hmem, rfl⟩
    obtain ⟨hmem, hat⟩ := mem_filter.mp hmem
    exact ⟨entry, hmem, rfl, hat⟩
  · rintro ⟨entry, hmem, rfl, hat⟩
    exact ⟨entry, mem_filter.mpr ⟨hmem, hat⟩, rfl⟩

theorem reaches_iff {nodes : List (Ident × SessionTreeNode ρ)} (h : Shaped entries nodes)
    {id : Ident} :
    (⟨nodes, (linkEntries entries).roots⟩ : SessionTree ρ).Reaches id ↔ Rooted entries id := by
  constructor
  · intro hreaches
    induction hreaches with
    | root hroot =>
      obtain ⟨entry, hmem, rfl, hat⟩ := mem_roots.mp hroot
      exact .root hmem hat
    | child _ hnode hid ih => exact .hung ih ((h.children _ _ hnode _).mp hid)
  · intro hrooted
    induction hrooted with
    | root hmem hat => exact .root (mem_roots.mpr ⟨_, hmem, rfl, hat⟩)
    | hung _ hid ih =>
      obtain ⟨node, hnode⟩ := h.get_of_below hid
      exact .child ih hnode ((h.children _ _ hnode _).mpr hid)

theorem rooted_finite (entries : Entries ρ) : {id | Rooted entries id}.Finite := by
  refine ((entries.map (·.id)).finite_toSet).subset ?_
  intro id hrooted
  cases hrooted with
  | root hmem _ => exact mem_map_of_mem hmem
  | hung _ hid =>
    obtain ⟨entry, hmem, rfl, -⟩ := hid
    exact mem_map_of_mem hmem

theorem getTree_ends_iff (getTime : Text → Option ℤ) (entries : Entries ρ) :
    (∃ fuel tree, getTree getTime entries fuel = some tree) ↔
      ∀ id, Rooted entries id → ¬ Relation.TransGen (Below entries) id id := by
  have hsort := exists_sortFrom_iff getTime (linkEntries_shaped entries)
    (linkEntries entries).roots.reverse
  have hacc : (∀ id ∈ (linkEntries entries).roots.reverse, Acc (Below entries) id) ↔
      ∀ id, Rooted entries id → ¬ Relation.TransGen (Below entries) id id := by
    constructor
    · intro h id hrooted
      refine Links.not_transGen_of_acc ?_
      induction hrooted with
      | root hmem hat => exact h _ (mem_reverse.mpr (mem_roots.mpr ⟨_, hmem, rfl, hat⟩))
      | hung _ hid ih => exact ih.inv hid
    · intro h id hmem
      obtain ⟨entry, hentry, rfl, hat⟩ := mem_roots.mp (mem_reverse.mp hmem)
      exact Links.acc_of_acyclic (rooted_finite entries) (fun _ _ hrooted hid => .hung hrooted hid) h
        (Rooted.root hentry hat)
  rw [← hacc, ← hsort]
  constructor
  · rintro ⟨fuel, tree, h⟩
    obtain ⟨nodes, hnodes, -⟩ := map_eq_some_iff.mp h
    exact ⟨fuel, nodes, hnodes⟩
  · rintro ⟨fuel, nodes, h⟩
    refine ⟨fuel, ⟨nodes, (linkEntries entries).roots⟩, ?_⟩
    rw [getTree, h]
    rfl

theorem getTree_shaped {getTime : Text → Option ℤ} {fuel : ℕ} {tree : SessionTree ρ}
    (h : getTree getTime entries fuel = some tree) :
    ∃ nodes, Shaped entries nodes ∧ tree = ⟨nodes, (linkEntries entries).roots⟩ := by
  obtain ⟨nodes, hnodes, rfl⟩ := map_eq_some_iff.mp h
  exact ⟨nodes, (sortFrom_spec getTime (linkEntries_shaped entries) hnodes).1, rfl⟩

/-- Reading a session ends, meets no entry twice on a path and gets in the tree to every entry whose
parents end, exactly when the links have no circle on the way and each such entry is the last of its
id, below a root. -/
theorem reading_iff (getTime : Text → Option ℤ) (entries : Entries ρ) (leafId : LeafId)
    (startId : Ident) :
    (WalkedOnce (buildSessionPath entries leafId) ∧ WalkedOnce (getBranch entries startId) ∧
      ∃ fuel tree, getTree getTime entries fuel = some tree ∧
        ∀ entry ∈ entries, Links.Ends (parentOf (buildEntryIndex entries)) entry →
          tree.Reaches entry.id ∧ (Assoc.get entry.id tree.nodes).map (·.entry) = some entry) ↔
      Traversable entries leafId startId := by
  have hends : ∀ entry, Links.Ends (parentOf (buildEntryIndex entries)) entry ↔
      Links.Acyclic (parentOf (buildEntryIndex entries)) entry := fun _ =>
    Links.ends_iff_acyclic (parentOf_finite entries)
  have hleaf := walkedOnce_pathTo entries (leafId.entry entries (buildEntryIndex entries))
  have hstart := walkedOnce_pathTo entries (lookup (buildEntryIndex entries) startId)
  constructor
  · rintro ⟨hpath, hbranch, fuel, tree, htree, hreached⟩
    obtain ⟨nodes, hshaped, rfl⟩ := getTree_shaped htree
    refine ⟨hleaf.mp hpath, hstart.mp hbranch,
      (getTree_ends_iff getTime entries).mp ⟨fuel, _, htree⟩, fun entry hmem hacyclic => ?_⟩
    obtain ⟨hreaches, hentry⟩ := hreached entry hmem ((hends entry).mpr hacyclic)
    exact ⟨(reaches_iff hshaped).mp hreaches, (hshaped.entry entry.id).symm.trans hentry⟩
  · intro h
    obtain ⟨fuel, tree, htree⟩ := (getTree_ends_iff getTime entries).mpr h.below
    refine ⟨hleaf.mpr h.leaf, hstart.mpr h.start, fuel, tree, htree, fun entry hmem hend => ?_⟩
    obtain ⟨nodes, hshaped, rfl⟩ := getTree_shaped htree
    obtain ⟨hrooted, hlast⟩ := h.last entry hmem ((hends entry).mp hend)
    exact ⟨(reaches_iff hshaped).mpr hrooted, (hshaped.entry entry.id).trans hlast⟩

/-- An entry that is its own parent is walked to for ever. -/
theorem own_parent_loops :
    ¬ WalkedOnce (getBranch [(⟨.string [97], .string [97], [], .state ()⟩ : SessionEntry Unit)]
      (.string [97])) := by
  intro h
  have hacyclic := (walkedOnce_pathTo _ _).mp h _ rfl
  exact hacyclic _ 0 0 rfl rfl

end

end KnightCode.Session
