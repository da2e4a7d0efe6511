import KnightCode.Library.JsonText

/-!
# Operations over plain JSON

A JSON value, the operations that revise one, and the checks an operation passes before it is used.
A number stands for its decimal value; counts, indices and path ids are numbers too, natural ones
once they are checked. Every operation but a root replacement edits the value at a path.
-/

namespace KnightCode.Delta

open List

inductive Json
  | null
  | bool (value : Bool)
  | num (value : ℚ)
  | str (text : Text)
  | arr (items : List Json)
  | obj (members : List (Text × Json))

inductive Seg
  | key (name : Text)
  | idx (index : ℕ)
  deriving DecidableEq

abbrev Path := List Seg

def Seg.toJson : Seg → Json
  | .key name => .str name
  | .idx index => .num index

def Path.toJson (path : Path) : Json :=
  .arr (path.map Seg.toJson)

/-- What an operation does at its path. -/
inductive Edit
  | set (value : Json)
  | delete
  | append (text : Text)
  | truncate (count : ℕ)
  | splice (index remove : ℕ) (items : List Json)
  /-- `new[i] = old[permutation[i]]` -/
  | permute (permutation : List ℕ)

inductive Op
  | replace (value : Json)
  | edit (path : Path) (edit : Edit)

/-- A batch begins with a replacement. -/
def isBase : List Op → Bool
  | .replace _ :: _ => true
  | _ => false

inductive DeltaError
  /-- `TypeError` -/
  | type (message : String)
  /-- `TypeError`, unknown op verb -/
  | unknownVerb (verb : Json)
  /-- `UnsafePathError` -/
  | unsafePath (segment : Json)
  /-- `PathError` of a path -/
  | path (path : Path)
  /-- `PathError` of an id -/
  | id (id : ℕ)

/-- Segments that reach the prototype chain. -/
def RESERVED_SEGMENTS : List Text :=
  [ascii "__proto__", ascii "constructor", ascii "prototype"]

def assertSafePath : Path → Except DeltaError Unit
  | [] => .ok ()
  | .key name :: path =>
    if name ∈ RESERVED_SEGMENTS then .error (.unsafePath (.str name)) else assertSafePath path
  | .idx _ :: path => assertSafePath path

/-- The indices of a permutation of `length` items, `seen` being those met so far. -/
def checkPermutation (length : ℕ) : List ℕ → List ℕ → Except DeltaError Unit
  | _, [] => .ok ()
  | seen, index :: rest =>
    if length ≤ index ∨ index ∈ seen then .error (.type "m permutation is not a bijection")
    else checkPermutation length (index :: seen) rest

def assertPermutation (permutation : List ℕ) : Except DeltaError Unit :=
  checkPermutation permutation.length [] permutation

def Edit.atRoot : Edit → Bool
  | .splice .. => true
  | .permute _ => true
  | _ => false

/-- The check of a decoded operation; its shape is right by its type. -/
def assertValidOp : Op → Except DeltaError Unit
  | .replace _ => .ok ()
  | .edit path edit => do
    if ¬ edit.atRoot ∧ path = [] then .error (.type "path is empty")
    assertSafePath path
    match edit with
    | .permute permutation => assertPermutation permutation
    | _ => .ok ()

def SafePath (path : Path) : Prop :=
  ∀ name, Seg.key name ∈ path → name ∉ RESERVED_SEGMENTS

theorem assertSafePath_ok {path : Path} : assertSafePath path = .ok () ↔ SafePath path := by
  induction path with
  | nil => simp [assertSafePath, SafePath]
  | cons seg path ih =>
    cases seg with
    | key name =>
      by_cases h : name ∈ RESERVED_SEGMENTS
      · simp only [assertSafePath, if_pos h, reduceCtorEq, false_iff]
        exact fun hs => hs name mem_cons_self h
      · simp only [assertSafePath, if_neg h, ih, SafePath, mem_cons]
        constructor
        · rintro hs n (hn | hn)
          · cases hn
            exact h
          · exact hs n hn
        · exact fun hs n hn => hs n (.inr hn)
    | idx index => simp [assertSafePath, ih, SafePath]

theorem checkPermutation_ok {length : ℕ} {seen permutation : List ℕ} :
    checkPermutation length seen permutation = .ok () ↔
      permutation.Nodup ∧ ∀ index ∈ permutation, index < length ∧ index ∉ seen := by
  induction permutation generalizing seen with
  | nil => simp [checkPermutation]
  | cons index rest ih =>
    by_cases h : length ≤ index ∨ index ∈ seen
    · simp only [checkPermutation, if_pos h, reduceCtorEq, false_iff, not_and]
      intro _ hall
      obtain ⟨hlt, hnot⟩ := hall index mem_cons_self
      exact h.elim (Nat.not_le_of_lt hlt) hnot
    · rw [checkPermutation, if_neg h, ih]
      push Not at h
      simp only [nodup_cons, mem_cons, not_or, forall_eq_or_imp]
      constructor
      · rintro ⟨hn, hall⟩
        exact ⟨⟨fun hm => (hall index hm).2.1 rfl, hn⟩, h, fun x hx => ⟨(hall x hx).1,
          (hall x hx).2.2⟩⟩
      · rintro ⟨⟨hnot, hn⟩, -, hall⟩
        refine ⟨hn, fun x hx => ⟨(hall x hx).1, ?_, (hall x hx).2⟩⟩
        rintro rfl
        exact hnot hx

theorem assertPermutation_ok {permutation : List ℕ} :
    assertPermutation permutation = .ok () ↔
      permutation.Nodup ∧ ∀ index ∈ permutation, index < permutation.length := by
  simp [assertPermutation, checkPermutation_ok]

/-- What a valid operation satisfies. -/
structure Op.Valid (path : Path) (edit : Edit) : Prop where
  safe : SafePath path
  nonempty : edit.atRoot = false → path ≠ []
  permutation : ∀ p, edit = .permute p → assertPermutation p = .ok ()

theorem assertValidOp_ok {path : Path} {edit : Edit} :
    assertValidOp (.edit path edit) = .ok () ↔ Op.Valid path edit := by
  by_cases hroot : ¬ edit.atRoot ∧ path = []
  · have herr : assertValidOp (.edit path edit) = .error (.type "path is empty") := by
      simp only [assertValidOp, if_pos hroot]
      rfl
    rw [herr]
    simp only [reduceCtorEq, false_iff]
    exact fun h => h.nonempty (by simpa using hroot.1) hroot.2
  · have hnonempty : edit.atRoot = false → path ≠ [] := by
      intro h hp
      exact hroot ⟨by simp [h], hp⟩
    have hrun : assertValidOp (.edit path edit) = (assertSafePath path).bind fun _ =>
        match edit with
        | .permute permutation => assertPermutation permutation
        | _ => .ok () := by
      simp only [assertValidOp, if_neg hroot]
      rfl
    rw [hrun]
    cases hs : assertSafePath path with
    | error e =>
      simp only [Except.bind, reduceCtorEq, false_iff]
      intro h
      rw [assertSafePath_ok.mpr h.safe] at hs
      cases hs
    | ok u =>
      have hsafe := assertSafePath_ok.mp hs
      simp only [Except.bind]
      cases edit with
      | permute p =>
        constructor
        · intro hp
          refine ⟨hsafe, hnonempty, ?_⟩
          rintro p' ⟨⟩
          exact hp
        · exact fun h => h.permutation p rfl
      | _ =>
        simp only [true_iff]
        exact ⟨hsafe, hnonempty, fun _ h => by cases h⟩

end KnightCode.Delta
