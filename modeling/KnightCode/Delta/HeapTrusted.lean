import KnightCode.Delta.HeapReplay

/-!
# Replaying without checks

The trusted replay copies the containers on a path as the checked one does where that one succeeds,
and then edits the last of them. Its splice moves the elements behind the removed ones within the
array and cuts or extends it by the difference: this is the splice of the array where it starts
within the array and reaches past the end by no more elements than it inserts.
-/

namespace KnightCode.Delta

open List Option Element Except

/-! ### Splices -/

namespace Trusted
variable {items : List Ref} {index : ℕ} {c : Cell} {seg : Seg} {ref : Ref} {path : Path}
  {e : EditOf Ref}

theorem defineAt_eq (h : index ≤ items.length) (value : Ref) :
    defineAt items index value = items.take index ++ value :: items.drop (index + 1) := by
  rw [defineAt]
  by_cases hlt : index < items.length
  · rw [if_pos hlt, set_eq_take_append_cons_drop, if_pos hlt]
  · have heq : index = items.length := le_antisymm h (not_lt.mp hlt)
    rw [if_neg hlt, heq, Nat.sub_self, take_length, drop_eq_nil_of_le (Nat.le_succ _)]
    rfl

theorem defineFrom_eq {start : ℕ} (h : start ≤ items.length) (values : List Ref) :
    defineFrom items start values =
      items.take start ++ (values ++ items.drop (start + values.length)) := by
  induction values generalizing items start with
  | nil => exact (take_append_drop start items).symm
  | cons value values ih =>
    have hlength : (items.take start ++ [value]).length = start + 1 := by
      rw [length_append, length_take, min_eq_left h, length_singleton]
    have hsplit : defineAt items start value =
        (items.take start ++ [value]) ++ items.drop (start + 1) := by
      rw [defineAt_eq h, append_assoc]
      rfl
    have hle : start + 1 ≤ (defineAt items start value).length := by
      rw [hsplit, length_append, hlength]
      exact Nat.le_add_right _ _
    have hdrop : (defineAt items start value).drop (start + 1 + values.length) =
        items.drop (start + (value :: values).length) := by
      rw [hsplit, ← hlength, drop_length_add_append, drop_drop, hlength,
        length_cons, add_assoc, add_comm 1]
    rw [defineFrom, ih hle, hdrop, hsplit, take_left' hlength, append_assoc]
    rfl

variable {α : Type}

theorem copyWithin_eq {items : List α} {target start end' : ℕ} (hend : end' ≤ items.length)
    (hroom : target + (end' - start) ≤ items.length ∨ end' ≤ start) :
    copyWithin items target start end' =
      if end' ≤ start then items
      else items.take target ++ ((items.drop start).take (end' - start) ++
        items.drop (target + (end' - start))) := by
  have hcount : min (min end' items.length - start) (items.length - target) = end' - start := by
    rw [min_eq_left hend]
    omega
  rw [copyWithin, hcount]
  by_cases hle : end' ≤ start
  · rw [if_pos hle, if_pos (Nat.sub_eq_zero_of_le hle)]
  · rw [if_neg hle, if_neg (Nat.sub_ne_zero_of_lt (not_le.mp hle))]

/-- `opened` has `count` places where the array had `remove` elements. -/
structure Opens (target : List α) (index remove count : ℕ) (opened : List α) : Prop where
  start : index ≤ opened.length
  take : opened.take index = target.take index
  drop : opened.drop (index + count) = target.drop (index + remove)

theorem grown_opens {target room : List α} {remove count : ℕ} (hindex : index ≤ target.length)
    (hgrow : remove < count) (hroom : room.length = count - remove) :
    Opens target index remove count
      (copyWithin (target ++ room) (index + count) (index + remove) target.length) := by
  have hlength : (target ++ room).length = target.length + (count - remove) := by
    rw [length_append, hroom]
  rw [copyWithin_eq (by omega) (by omega)]
  by_cases hend : target.length ≤ index + remove
  · rw [if_pos hend]
    refine ⟨by omega, take_append_of_le_length hindex, ?_⟩
    rw [drop_eq_nil_of_le hend, drop_eq_nil_of_le (by omega)]
  · rw [if_neg hend]
    have hfront : ((target ++ room).take (index + count)).length = index + count := by
      rw [length_take]
      omega
    refine ⟨?_, ?_, ?_⟩
    · rw [length_append, hfront]
      omega
    · rw [take_append_of_le_length (by omega), take_take, min_eq_left (by omega),
        take_append_of_le_length hindex]
    · have hrest : (target ++ room).drop
          (index + count + (target.length - (index + remove))) = [] :=
        drop_eq_nil_of_le (by omega)
      rw [drop_left' hfront, drop_append_of_le_length (by omega),
        take_left' length_drop, hrest, append_nil]

theorem shrunk_opens {target : List α} {remove count : ℕ} (hindex : index ≤ target.length)
    (hshrink : count < remove) (hremove : index + remove ≤ target.length + count) :
    Opens target index remove count
      ((copyWithin target (index + count) (index + remove) target.length).take
        (target.length + count - remove)) := by
  rw [copyWithin_eq le_rfl (by omega)]
  by_cases hend : target.length ≤ index + remove
  · rw [if_pos hend]
    refine ⟨?_, ?_, ?_⟩
    · rw [length_take]
      omega
    · rw [take_take, min_eq_left (by omega)]
    · rw [drop_eq_nil_of_le hend, drop_eq_nil_of_le]
      rw [length_take]
      omega
  · rw [if_neg hend]
    have hfront : (target.take (index + count)).length = index + count := by
      rw [length_take]
      omega
    have hmoved : ((target.drop (index + remove)).take (target.length - (index + remove))).length =
        target.length - (index + remove) := by
      rw [length_take, length_drop]
      omega
    have hcut : target.length + count - remove =
        (target.take (index + count) ++ target.drop (index + remove)).length := by
      rw [length_append, hfront, length_drop]
      omega
    rw [take_of_length_le (l := target.drop (index + remove)) length_drop.le,
      ← append_assoc, take_left' hcut.symm]
    refine ⟨?_, ?_, drop_left' hfront⟩
    · rw [length_append, hfront]
      omega
    · rw [take_append_of_le_length (by omega), take_take, min_eq_left (by omega)]

/-- The splice of an array where it starts in it and reaches past the end by no more elements than
it inserts. -/
theorem spliceTrusted_eq {target : List Ref} {remove : ℕ} (hindex : index ≤ target.length)
    (hremove : index + remove ≤ target.length + items.length) :
    spliceTrusted target index remove items =
      .ok (target.take index ++ (items ++ target.drop (index + remove))) := by
  rw [spliceTrusted]
  by_cases hgrow : remove < items.length
  · rw [if_pos hgrow]
    have hopens := grown_opens hindex hgrow
      (length_replicate (n := items.length - remove) (a := Ref.hole))
    dsimp only
    rw [defineFrom_eq hopens.start, hopens.take, hopens.drop]
  · rw [if_neg hgrow]
    by_cases hshrink : items.length < remove
    · rw [if_pos hshrink]
      have hopens := shrunk_opens hindex hshrink hremove
      dsimp only
      rw [if_neg (by omega), defineFrom_eq hopens.start, hopens.take, hopens.drop]
    · rw [if_neg hshrink, defineFrom_eq hindex, le_antisymm (not_lt.mp hgrow)
        (not_lt.mp hshrink)]

/-- A splice that starts in its array and reaches past the end by no more elements than it inserts,
or that changes nothing. -/
def Fits (length index remove count : ℕ) : Prop :=
  (index ≤ length ∧ index + remove ≤ length + count) ∨ (remove = 0 ∧ count = 0)

theorem spliceTrusted_of_fits {target : List Ref} {remove : ℕ}
    (h : Fits target.length index remove items.length) :
    spliceTrusted target index remove items =
      .ok (target.take index ++ (items ++ target.drop (index + remove))) := by
  obtain ⟨hindex, hremove⟩ | ⟨rfl, hnone⟩ := h
  · exact spliceTrusted_eq hindex hremove
  · rw [length_eq_zero_iff.mp hnone, nil_append, add_zero, take_append_drop]
    rfl

/-! ### One container -/

theorem read_of_child (h : c.child seg = some ref) : read c seg = ref := by
  cases c with
  | arr items =>
    cases seg with
    | key name => cases h
    | idx index => exact congrArg (Option.getD · Ref.hole) h
  | obj members => exact congrArg (Option.getD · Ref.hole) h

theorem define_of_assertMember (h : c.assertMember seg = .ok ()) (ref : Ref) :
    define c seg ref = c.write seg ref := by
  cases c with
  | obj members => rfl
  | arr items =>
    cases seg with
    | key name => cases h
    | idx index =>
      have hle : index ≤ items.length := by
        by_contra hgt
        rw [Container.assertMember, if_pos (not_le.mp hgt)] at h
        cases h
      rw [define, Container.write, defineAt]
      by_cases hlt : index < items.length
      · rw [if_pos hlt, if_pos hlt]
      · rw [if_neg hlt, if_neg hlt, Nat.sub_eq_zero_of_le hle]
        rfl

theorem assertMember_of_child (h : c.child seg = some ref) : c.assertMember seg = .ok () := by
  cases c with
  | obj members => rfl
  | arr items =>
    cases seg with
    | key name => cases h
    | idx index =>
      have hlt := (List.getElem?_eq_some_iff.mp h).1
      exact if_neg (Nat.not_lt.mpr hlt.le)

theorem edited_of_onTarget {cell cell' : Cell}
    (hfits : ∀ index remove items elements, e = .splice index remove items → cell = .arr elements →
      Fits elements.length index remove items.length) (h : e.onTarget path cell = .ok cell') :
    edited path e cell = .ok cell' := by
  cases cell with
  | obj members => cases h
  | arr elements =>
    cases e with
    | splice index remove items =>
      cases h
      show (spliceTrusted elements index remove items).map Container.arr = _
      rw [spliceTrusted_of_fits (hfits index remove items elements rfl rfl)]
      rfl
    | permute permutation =>
      have hlength : elements.length = permutation.length := by
        by_contra hne
        rw [EditOf.onTarget, if_pos hne] at h
        cases h
      rw [EditOf.onTarget, if_neg (not_not.mpr hlength)] at h
      cases h
      show (permuteTrusted elements permutation).map Container.arr = _
      rw [permuteTrusted, if_neg (not_not.mpr hlength)]
      rfl
    | _ => cases h

theorem text_of_child {current : Text} (h : (c.child seg).bind text? = some current) :
    c.child seg = some (.str current) := by
  obtain ⟨ref, hchild, htext⟩ := bind_eq_some_iff.mp h
  cases ref with
  | str text =>
    cases htext
    exact hchild
  | _ => cases htext

theorem edited_of_onMember {key : Seg} {cell cell' : Cell} (hlast : path.getLast? = some key)
    (hmember : cell.assertMember key = .ok ()) (h : e.onMember path key cell = .ok cell') :
    edited path e cell = .ok cell' := by
  have hwrite := define_of_assertMember hmember
  unfold edited
  rw [hlast, getD_some]
  cases e with
  | set value =>
    cases h
    exact congrArg Except.ok (hwrite value)
  | delete =>
    cases cell with
    | obj members =>
      cases h
      rfl
    | arr elements =>
      cases key with
      | key name => cases h
      | idx index =>
        have hlt : index < elements.length := by
          by_contra hge
          rw [EditOf.onMember, if_pos (not_lt.mp hge)] at h
          cases h
        rw [EditOf.onMember, if_neg (Nat.not_le.mpr hlt), eraseIdx_eq_take_drop_succ] at h
        cases h
        dsimp only
        rw [spliceTrusted_eq hlt.le (show index + 1 ≤ elements.length + 0 from hlt)]
        rfl
  | append amount | truncate amount =>
    unfold EditOf.onMember at h
    cases hcurrent : (cell.child key).bind text? with
    | none =>
      rw [hcurrent] at h
      cases h
    | some current =>
      rw [hcurrent] at h
      cases h
      dsimp only
      rw [read_of_child (text_of_child hcurrent)]
      exact congrArg Except.ok (hwrite _)
  | splice index remove items => cases h
  | permute permutation => cases h

theorem update_eq_ok {heap heap' : Heap} {address : ℕ} {f : Cell → Except DeltaError Cell}
    (h : heap.update address f = .ok heap') :
    ∃ cell cell', heap[address]? = some cell ∧ f cell = .ok cell' ∧
      heap' = heap.set address cell' := by
  rw [Heap.update] at h
  cases hcell : heap[address]? with
  | none =>
    rw [hcell] at h
    cases h
  | some cell =>
    rw [hcell] at h
    obtain ⟨cell', hf, hset⟩ := Except.map_eq_ok h
    exact ⟨cell, cell', rfl, hf, hset.symm⟩

theorem edited_of_applyEdit {heap heap' : Heap} {root : Ref} {target : ℕ}
    (hresolve : heap.resolve (Replay.editPath path e) (Replay.editPath path e) root = .ok target)
    (hfits : ∀ index remove items elements, e = .splice index remove items →
      heap[target]? = some (.arr elements) → Fits elements.length index remove items.length)
    (h : heap.applyEdit path e root = .ok heap') :
    ∃ cell cell', heap[target]? = some cell ∧ edited path e cell = .ok cell' ∧
      heap' = heap.set target cell' := by
  rw [Heap.applyEdit] at h
  rw [Replay.editPath] at hresolve
  by_cases hroot : e.atRoot = true
  · rw [if_pos hroot] at h
    rw [if_pos hroot] at hresolve
    rw [hresolve] at h
    obtain ⟨cell, cell', hcell, hedit, hset⟩ := update_eq_ok h
    refine ⟨cell, cell', hcell, edited_of_onTarget ?_ hedit, hset⟩
    rintro index remove items elements he rfl
    exact hfits index remove items elements he hcell
  · rw [if_neg hroot] at h
    rw [if_neg hroot] at hresolve
    cases hlast : path.getLast? with
    | none =>
      rw [hlast] at h
      cases h
    | some key =>
      rw [hlast] at h
      dsimp only at h
      rw [hresolve] at h
      obtain ⟨cell, cell', hcell, hedit, hset⟩ := update_eq_ok h
      obtain ⟨_, hmember, hedit⟩ := Except.bind_eq_ok hedit
      exact ⟨cell, cell', hcell, edited_of_onMember hlast hmember hedit, hset⟩

/-! ### The walk -/

theorem step_of_child {heap : Heap} {address : ℕ} (hcell : heap[address]? = some c)
    (h : c.child seg = some ref) (path : Path) :
    heap.step path (.container address) seg = .ok ref := by
  unfold Heap.step
  rw [show heap.cell (.container address) = some c from hcell]
  cases c with
  | arr items =>
    cases seg with
    | key name => cases h
    | idx index =>
      dsimp only
      rw [h]
  | obj members =>
    dsimp only
    rw [h]

theorem copyChild_of_copyChild {path : Path} {r : Replay} {destination : ℕ} {c : Cell} {seg : Seg}
    {ref : Ref} {next : Replay × ℕ} (hchild : c.child seg = some ref)
    (h : Replay.copyChild path r destination c seg ref = .ok next) :
    copyChild r destination c seg ref = .ok next := by
  cases ref with
  | container child =>
    rw [Replay.copyChild] at h
    rw [copyChild]
    by_cases howned : child ∈ r.owned
    · rw [if_pos howned] at h ⊢
      cases h
      rfl
    · rw [if_neg howned] at h ⊢
      cases hcopied : r.heap[child]? with
      | none =>
        rw [hcopied] at h
        cases h
      | some copied =>
        rw [hcopied] at h
        cases h
        dsimp only
        rw [define_of_assertMember (assertMember_of_child hchild)]
  | _ => cases h

variable {shared : Heap} {r : Replay} {foot : List ℕ} {value : Json}

/-- Where the checked walk copies a path, the trusted one does, and ends where a walk along the
path does. -/
theorem copyWalk_of_copyWalk (path rest whole : Path) {destination : ℕ} {r' : Replay}
    (hkeeps : r.Keeps shared) (howns : Owns shared r.heap (.container destination) value foot)
    (hle : shared.length ≤ destination) (hnodup : foot.Nodup)
    (h : Replay.copyWalk path rest r destination = .ok r') :
    ∃ target, copyWalk rest r destination = .ok (r', target) ∧
      r'.heap.resolve whole rest (.container destination) = .ok target := by
  induction rest generalizing r destination value foot with
  | nil =>
    cases h
    exact ⟨destination, rfl, rfl⟩
  | cons seg rest ih =>
    obtain ⟨c, hcell, rfl, rfl, hc⟩ := howns.of_le hle
    rw [Replay.copyWalk, hcell] at h
    obtain ⟨ref, hown, h⟩ := Except.bind_eq_ok h
    obtain ⟨next, hcopy, h⟩ := Except.bind_eq_ok h
    obtain ⟨_, -, kid, hchild, rfl, -⟩ :=
      ((ownChild_agree c path seg).mapError_left _).ok_left hown
    obtain ⟨_, _, hperm, _⟩ := Container.foot_write hchild
    obtain ⟨hnot, hcfoot⟩ := nodup_cons.mp hnodup
    have hkidNodup : kid.foot.Nodup := (nodup_append.mp (hperm.nodup_iff.mp hcfoot)).1
    have hcellChild : c.cell.child seg = some kid.ref := by
      rw [Container.cell, Container.child_map, hchild]
      rfl
    obtain ⟨-, herror⟩ | ⟨r₁, child, foot₁, hrun, hentered⟩ := copyChild_spec path hkeeps hle hcell
      (hc kid (Container.child_mem hchild)) hkidNodup hchild
    · rw [herror] at hcopy
      cases hcopy
    · rw [hrun] at hcopy
      cases hcopy
      obtain ⟨target, hwalk, hresolve⟩ := ih hentered.keeps hentered.owns hentered.le
        hentered.nodup h
      obtain ⟨-, -, hcopied⟩ := (copyWalk_agree path rest hentered.keeps hentered.owns hentered.le
        hentered.nodup).ok_left h
      have hlt : destination < r.heap.length := (List.getElem?_eq_some_iff.mp hcell).1
      have hcell' : r'.heap[destination]? = some (c.cell.write seg (.container child)) := by
        rw [← hentered.cell]
        refine hcopied.frame destination (hlt.trans_le hentered.length) fun hmem => ?_
        obtain hin | hge := hentered.source destination hmem
        · exact hnot (hperm.mem_iff.mpr (mem_append_left _ hin))
        · omega
      refine ⟨target, ?_, ?_⟩
      · rw [copyWalk, hcell]
        dsimp only
        rw [read_of_child hcellChild, copyChild_of_copyChild hcellChild hrun]
        exact hwalk
      · rw [Heap.resolve, step_of_child hcell' (Container.child_write hcellChild _)]
        exact hresolve

theorem copyPath_of_copyContainers {root : Ref} {w : Replay × Ref} (hkeeps : r.Keeps shared)
    (howns : Owns shared r.heap root value foot) (hnodup : foot.Nodup)
    (h : r.copyContainers root path = .ok w) (whole : Path) :
    ∃ target, copyPath r root path = .ok (w.1, w.2, target) ∧
      w.1.heap.resolve whole path w.2 = .ok target := by
  cases root with
  | container address =>
    rw [Replay.copyContainers] at h
    rw [copyPath]
    by_cases howned : address ∈ r.owned
    · rw [if_pos howned] at h ⊢
      obtain ⟨r', hr', h⟩ := Except.bind_eq_ok h
      cases h
      obtain ⟨target, hwalk, hresolve⟩ := copyWalk_of_copyWalk path path whole hkeeps howns
        ((hkeeps.owned address).mp howned).1 hnodup hr'
      refine ⟨target, ?_, hresolve⟩
      rw [hwalk]
      rfl
    · rw [if_neg howned] at h ⊢
      obtain ⟨c, hcell, rfl, rfl, hfoot, hc⟩ := howns.of_not_owned hkeeps howned
      rw [hcell] at h ⊢
      obtain ⟨r', hr', h⟩ := Except.bind_eq_ok h
      cases h
      obtain ⟨target, hwalk, hresolve⟩ := copyWalk_of_copyWalk path path whole (hkeeps.own c.cell)
        (Owns.of_copy hkeeps hfoot hc (r.own_here c.cell)) hkeeps.length (nodup_singleton _) hr'
      refine ⟨target, ?_, hresolve⟩
      dsimp only
      rw [hwalk]
      rfl
  | _ => cases h

end Trusted

/-! ### Operations -/

def Json.reach : Path → Json → Option Json
  | [], value => some value
  | seg :: path, value => (value.child seg).bind (reach path)

/-- A splice fits the array it meets. -/
def Op.Fits (root : Json) : Op → Prop
  | .edit path (.splice index remove items) => ∀ elements, root.reach path = some (.arr elements) →
      Trusted.Fits elements.length index remove items.length
  | _ => True

/-- The splices fit the arrays they meet, one operation after another. -/
def SplicesFit : Json → List Op → Prop
  | _, [] => True
  | root, op :: ops => op.Fits root ∧ ∀ next, Delta.applyOp root op = .ok next → SplicesFit next ops

section

variable {shared : Heap} {r : Replay}
variable {root : Ref} {value : Json}

theorem reach_of_resolve {heap : Heap} (hshared : ∀ a < shared.length, heap[a]? = shared[a]?)
    (whole path : Path) {foot : List ℕ} {target : ℕ} (howns : Owns shared heap root value foot)
    (h : heap.resolve whole path root = .ok target) :
    ∃ c : Container Kid, heap[target]? = some c.cell ∧ value.reach path = some c.json := by
  induction path generalizing root value foot with
  | nil =>
    cases root with
    | container address =>
      cases h
      obtain ⟨c, hcell, rfl, -⟩ := howns.elements hshared
      exact ⟨c, hcell, rfl⟩
    | _ => cases h
  | cons seg path ih =>
    obtain ⟨next, hstep, h⟩ := Except.bind_eq_ok h
    cases root with
    | container address =>
      obtain ⟨c, hcell, rfl, hc⟩ := howns.elements hshared
      obtain ⟨_, -, kid, hchild, rfl, -⟩ := (Heap.step_container hcell whole seg).ok_left hstep
      obtain ⟨c', hcell', hreach⟩ := ih (hc kid (Container.child_mem hchild)) h
      refine ⟨c', hcell', ?_⟩
      rw [Json.reach, Container.json, Json.child_ofContainer, Container.child_map, hchild]
      exact hreach
    | _ => cases hstep

theorem Replay.attempt_eq_ok {α : Type} {outcome : Except DeltaError α} {a : α}
    (h : r.attempt outcome = .ok a) : outcome = .ok a := by
  cases outcome with
  | error e => cases h
  | ok b => exact congrArg Except.ok (Except.ok.inj h)

theorem trustedApplyOp_of_copyAndEdit (h : Replayed shared (r, root) value) {path : Path}
    {e : EditOf Kid} (hfits : (OpOf.edit path e).values.Fits value) {w : Replay × Ref}
    (hrun : r.copyAndEdit root path (e.map (·.ref)) = .ok w) :
    Trusted.applyOp r root (.edit path (e.map (·.ref))) = .ok w := by
  obtain ⟨foot, howns, hnodup⟩ := h.owns
  rw [Replay.copyAndEdit] at hrun
  obtain ⟨⟨r', root'⟩, hcopy, hrun⟩ := Except.bind_eq_ok hrun
  obtain ⟨target, hpath, hresolve⟩ := Trusted.copyPath_of_copyContainers h.keeps howns hnodup hcopy
    (Replay.editPath path (e.map (·.ref)))
  obtain ⟨_, -, rfl, hcopied⟩ := (copyContainers_agree h.keeps howns hnodup _).ok_left hcopy
  obtain ⟨⟨heap', root''⟩, happly, hrun⟩ := Except.bind_eq_ok hrun
  obtain ⟨_, -, hedit⟩ := Except.bind_eq_ok (Replay.attempt_eq_ok happly)
  obtain ⟨_, hwrite, heq⟩ := Except.bind_eq_ok hedit
  cases heq
  cases hrun
  obtain ⟨foot', howns', -⟩ := hcopied.owns
  have hfit : ∀ index remove items elements, e.map (·.ref) = .splice index remove items →
      r'.heap[target]? = some (.arr elements) →
      Trusted.Fits elements.length index remove items.length := by
    intro index remove items elements he hcell
    cases e with
    | splice index' remove' items' =>
      cases he
      obtain ⟨c, hcell', hreach⟩ := reach_of_resolve hcopied.keeps.agree path path howns' hresolve
      have hsame : c.cell = .arr elements := Option.some.inj (hcell'.symm.trans hcell)
      cases c with
      | obj members => cases hsame
      | arr kids =>
        cases hsame
        have hkids := hfits _ hreach
        rw [length_map, length_map] at hkids ⊢
        exact hkids
    | _ => cases he
  obtain ⟨cell, cell', hcell, hedited, rfl⟩ := Trusted.edited_of_applyEdit hresolve hfit hwrite
  rw [Trusted.applyOp, hpath]
  dsimp only [bind, Except.bind]
  rw [hcell]
  dsimp only
  rw [hedited]
  rfl

theorem trustedApplyOp_of_applyOp {value' : Json} (h : Replayed shared (r, root) value)
    {op : OpOf Kid} (hbrings : Brings shared op.payload) (hfits : op.values.Fits value)
    (happly : Delta.applyOp value op.values = .ok value') :
    ∃ w, Trusted.applyOp r root op.refs = .ok w ∧ Replayed shared w value' := by
  cases op with
  | replace kid =>
    obtain ⟨hdenotes, -⟩ := hbrings kid mem_cons_self
    have hvalue : kid.value = value' := by
      cases happly
      rfl
    exact ⟨(r, kid.ref), rfl, h.keeps, [], .shared (hvalue ▸ hdenotes), nodup_nil⟩
  | edit path e =>
    have hcopy : Delta.copyContainers value (Replay.editPath path e) = .ok value := by
      have hedit : Delta.applyEdit path (e.map (·.value)).toEdit value = .ok value' := by
        obtain ⟨_, -, hedit⟩ := Except.bind_eq_ok happly
        exact hedit
      have hcontainers := copyContainers_of_applyEdit hedit
      rw [EditOf.atRoot_toEdit, EditOf.atRoot_map] at hcontainers
      exact hcontainers
    have hagree := @copyAndEdit_agree _ _ _ _ h path e hbrings
    rw [hcopy] at hagree
    obtain ⟨w, hrun, hreplayed⟩ := hagree.ok_right happly
    exact ⟨w, trustedApplyOp_of_copyAndEdit h hfits hrun, hreplayed⟩

theorem trusted_of_applyOps {ops : List (OpOf Kid)} (hbrings : ∀ op ∈ ops, Brings shared op.payload)
    {w : Replay × Ref} {value' : Json} (h : Replayed shared w value)
    (hfits : SplicesFit value (ops.map (·.values)))
    (happly : Delta.applyOps value (ops.map (·.values)) = .ok value') :
    ∃ w', (ops.map (·.refs)).foldlM (fun w op => Trusted.applyOp w.1 w.2 op) w = .ok w' ∧
      Replayed shared w' value' := by
  induction ops generalizing w value with
  | nil =>
    cases happly
    exact ⟨w, rfl, h⟩
  | cons op ops ih =>
    rw [map_cons, Delta.applyOps, foldlM_cons] at happly
    obtain ⟨next, hnext, hrest⟩ := Except.bind_eq_ok happly
    obtain ⟨hfit, hfits⟩ := hfits
    obtain ⟨w₁, hrun, h₁⟩ := trustedApplyOp_of_applyOp h (hbrings op mem_cons_self) hfit hnext
    obtain ⟨w', hrun', h'⟩ := ih (fun op' hmem => hbrings op' (mem_cons_of_mem _ hmem)) h₁
      (hfits next hnext) hrest
    refine ⟨w', ?_, h'⟩
    rw [map_cons, foldlM_cons, hrun]
    exact hrun'

end

/-! ### All appliers -/

/-- A copy of a value and operations with copies of their values, no container in two places. -/
structure Detached (heap : Heap) (root : Ref) (value : Json) (ops : List (OpOf Kid)) : Prop where
  payload : ∀ op ∈ ops, ∀ kid ∈ op.payload, Owns [] heap kid.ref kid.value kid.foot
  owns : ∃ foot, Owns [] heap root value foot ∧
    ((ops.flatMap (·.payload)).flatMap (·.foot) ++ foot).Nodup

/-- Both roots stand for one value. -/
def SameValue (w : Replay × Ref) (w' : Heap × Ref) : Prop :=
  ∃ value, Denotes w.1.heap w.2 value ∧ Denotes w'.1 w'.2 value

theorem Replayed.denotes {shared : Heap} {w : Replay × Ref} {value : Json}
    (h : Replayed shared w value) : Denotes w.1.heap w.2 value := by
  obtain ⟨_, howns, -⟩ := h.owns
  exact howns.denotes h.keeps.agree

/-- Replaying batches and applying their operations to a copy in place succeed together, with the
same value, and the replay writes no container that was there; where they succeed and the splices
fit, the trusted replay has that value too. -/
theorem appliers_agree {heap copied : Heap} {root copy : Ref} {value : Json}
    {batches : List (List (OpOf Kid))} {copies : List (OpOf Kid)} (hroot : Denotes heap root value)
    (hbrings : ∀ ops ∈ batches, ∀ op ∈ ops, Brings heap op.payload)
    (hcopy : Detached copied copy value copies)
    (hsame : copies.map (·.values) = batches.flatten.map (·.values)) :
    Agree SameValue
        (applyImmutableBatches heap root (batches.map fun ops => ops.map (·.refs)))
        (copied.applyOps copy (copies.map (·.refs))) ∧
      (∀ w, applyImmutableBatches heap root (batches.map fun ops => ops.map (·.refs)) = .ok w →
        ∀ a < heap.length, w.1.heap[a]? = heap[a]?) ∧
      Leaves heap (applyImmutableBatches heap root (batches.map fun ops => ops.map (·.refs))) ∧
      ∀ w', copied.applyOps copy (copies.map (·.refs)) = .ok w' →
        SplicesFit value (copies.map (·.values)) →
        ∃ w, applyImmutableTrusted heap root (batches.flatten.map (·.refs)) = .ok w ∧
          SameValue w w' ∧ ∀ a < heap.length, w.1.heap[a]? = heap[a]? := by
  obtain ⟨foot, howns, hnodup⟩ := hcopy.owns
  have hreplayed := applyBatches_agree hbrings (replayed_start hroot)
  have hplace := Heap.applyOps_agree hcopy.payload howns hnodup
  have hvalues : (batches.map fun ops => ops.map (·.values)).flatten = copies.map (·.values) := by
    rw [hsame, map_flatten]
  rw [hvalues] at hreplayed
  refine ⟨?_, fun w hw => ?_, applyBatches_leaves hbrings (replayed_start hroot), ?_⟩
  · refine (hreplayed.of_both hplace).mono ?_
    rintro w w' ⟨value', hw, foot', hw'⟩
    exact ⟨value', hw.denotes, hw'.denotes fun _ ha => absurd ha (Nat.not_lt_zero _)⟩
  · obtain ⟨_, -, hw⟩ := hreplayed.ok_left hw
    exact hw.keeps.agree
  · intro w' hw' hfits
    obtain ⟨value', happly, foot', howns'⟩ := hplace.ok_left hw'
    rw [hsame] at hfits happly
    have hall : ∀ op ∈ batches.flatten, Brings heap op.payload := fun op hmem => by
      obtain ⟨ops, hops, hop⟩ := mem_flatten.mp hmem
      exact hbrings ops hops op hop
    obtain ⟨w, hrun, hw⟩ := trusted_of_applyOps hall (replayed_start hroot) hfits happly
    exact ⟨w, hrun, ⟨value', hw.denotes, howns'.denotes fun _ ha => absurd ha (Nat.not_lt_zero _)⟩,
      hw.keeps.agree⟩

/-- An array of `null`, and an empty array that is put into it. -/
def payloadHeap : Heap := [.arr [.null], .arr []]

/-- What the first batch puts into the tree, the second changes. -/
theorem appliers_agree_payload :
    Agree SameValue
      (applyImmutableBatches payloadHeap (.container 0)
        [[.edit [.idx 0] (.set (.container 1))], [.edit [.idx 0] (.splice 0 0 [.bool true])]])
      (payloadHeap.applyOps (.container 0)
        [.edit [.idx 0] (.set (.container 1)), .edit [.idx 0] (.splice 0 0 [.bool true])]) ∧
      ∃ w, applyImmutableTrusted payloadHeap (.container 0)
          [.edit [.idx 0] (.set (.container 1)), .edit [.idx 0] (.splice 0 0 [.bool true])] = .ok w ∧
        SameValue w ([.arr [.container 1], .arr [.bool true]], .container 0) ∧
        ∀ a < payloadHeap.length, w.1.heap[a]? = payloadHeap[a]? := by
  have hpayload : Denotes payloadHeap (.container 1) (.arr []) :=
    .container 1 (.arr []) rfl fun _ hmem => (by cases hmem)
  have hroot : Denotes payloadHeap (.container 0) (.arr [.null]) :=
    .container 0 (.arr [(.null, .null)]) rfl fun k hmem => mem_singleton.mp hmem ▸ .null
  have howned : Owns [] payloadHeap (.container 1) (.arr []) [1] :=
    .owned 1 (.arr []) (Nat.zero_le _) rfl fun _ hmem => (by cases hmem)
  have hcopy : Owns [] payloadHeap (.container 0) (.arr [.null]) [0] :=
    .owned 0 (.arr [⟨.null, .null, []⟩]) (Nat.zero_le _) rfl fun kid hmem =>
      mem_singleton.mp hmem ▸ .shared .null
  have hagrees := @appliers_agree _ _ _ _ _
    [[.edit [.idx 0] (.set ⟨.container 1, .arr [], []⟩)],
      [.edit [.idx 0] (.splice 0 0 [⟨.bool true, .bool true, []⟩])]]
    [.edit [.idx 0] (.set ⟨.container 1, .arr [], [1]⟩),
      .edit [.idx 0] (.splice 0 0 [⟨.bool true, .bool true, []⟩])] hroot ?_ ⟨?_, [0], hcopy, ?_⟩ rfl
  · obtain ⟨hagree, -, -, htrusted⟩ := hagrees
    refine ⟨hagree, htrusted _ rfl ⟨trivial, ?_⟩⟩
    rintro next ⟨⟩
    refine ⟨?_, fun _ _ => trivial⟩
    rintro items ⟨⟩
    exact .inl ⟨by decide, by decide⟩
  · intro ops hops op hop kid hkid
    obtain rfl | hops := mem_cons.mp hops
    · rw [mem_singleton.mp hop] at hkid
      rw [mem_singleton.mp hkid]
      exact ⟨hpayload, rfl⟩
    · rw [mem_singleton.mp hops] at hop
      rw [mem_singleton.mp hop] at hkid
      rw [mem_singleton.mp hkid]
      exact ⟨.bool true, rfl⟩
  · intro op hop kid hkid
    obtain rfl | hop := mem_cons.mp hop
    · rw [mem_singleton.mp hkid]
      exact howned
    · rw [mem_singleton.mp hop] at hkid
      rw [mem_singleton.mp hkid]
      exact .shared (.bool true)
  · decide

/-- A splice that removes past the end is applied, and is no trusted one; one past the end leaves
holes. -/
theorem splice_past_end :
    Heap.applyOps [.arr [.null, .null]] (.container 0) [.edit [] (.splice 0 10 [])] =
        .ok ([.arr []], .container 0) ∧
      applyImmutableTrusted [.arr [.null, .null]] (.container 0) [.edit [] (.splice 0 10 [])] =
        .error .range ∧
      Heap.applyOps [.arr []] (.container 0) [.edit [] (.splice 1 0 [.null])] =
        .ok ([.arr [.null]], .container 0) ∧
      applyImmutableTrusted [.arr []] (.container 0) [.edit [] (.splice 1 0 [.null])] =
        .ok (⟨[.arr [], .arr [.hole, .null]], [1]⟩, .container 1) :=
  ⟨rfl, rfl, rfl, rfl⟩

end KnightCode.Delta
