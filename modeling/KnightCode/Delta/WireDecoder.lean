import KnightCode.Delta.CodecRoundTrip
import KnightCode.Delta.Writes

/-!
# What a decoder lets through

The decoder over tuples as received, of any shape: a batch that fails keeps what it has read of the
dictionary. A tuple that passes its check is exactly one an operation or a definition writes, and
every path the decoder keeps passed a check itself; so whatever it returns passes the check of
decoded operations.
-/

namespace KnightCode.Delta

open List Except
variable {value : Json} {items : List Json}

/-- A decoded operation as a tuple. -/
def Op.toJson : Op → Json
  | .replace value => .arr [.str (ascii "r"), value]
  | .edit path e => .arr (.str e.verb :: path.toJson :: e.args)

def WireOp.toTuple : WireOp → List Json
  | .replace value => [.str (ascii "r"), value]
  | .define id path => [.str (ascii "#"), .num id, path.toJson]
  | .edit ref e => .str e.verb :: (ref.toList.map PathRef.toJson ++ e.args)

/-! ### The checks and the decoder, over tuples as received -/

namespace Wire

def assertPathArg (path : Json) (nonEmpty : Bool) : Except DeltaError Unit :=
  match path with
  | .arr path =>
    if nonEmpty ∧ path.length = 0 then .error (.type "path is empty")
    else (safePath path).map fun _ => ()
  | _ => .error (.type "path is not an array")

def assertValidOp : Json → Except DeltaError Unit
  | .arr (.str verb :: op) =>
    if verb = ascii "r" then
      match op with
      | [_] => .ok ()
      | _ => .error (.type "r arity")
    else if verb = ascii "s" then
      match op with
      | [path, _] => assertPathArg path true
      | _ => .error (.type "s arity")
    else if verb = ascii "d" then
      match op with
      | [path] => assertPathArg path true
      | _ => .error (.type "d arity")
    else if verb = ascii "a" then
      match op with
      | [path, .str _] => assertPathArg path true
      | _ => .error (.type "a shape")
    else if verb = ascii "t" then
      match op with
      | [path, n] => do
        let _ ← count n "t shape"
        assertPathArg path true
      | _ => .error (.type "t shape")
    else if verb = ascii "p" then
      match op with
      | [path, index, remove, items] => do
        assertPathArg path false
        let _ ← okSplice index remove items
        return ()
      | _ => .error (.type "p arity")
    else if verb = ascii "m" then
      match op with
      | [path, value] => do
        assertPathArg path false
        let _ ← okPermutation value
        return ()
      | _ => .error (.type "m arity")
    else .error (.unknownVerb (.str verb))
  | .arr (verb :: _) => .error (.unknownVerb verb)
  | _ => .error (.type "op is not a tuple")

def assertValidWireOp : Json → Except DeltaError Unit
  | .arr op => (Delta.assertValidWireOp op).map fun _ => ()
  | _ => .error (.type "op is not a tuple")

/-- `paths` of a decoder. -/
abbrev Paths := List (ℚ × Json)

/-- The path was left out: what follows the verb is too short to name one. -/
def short (verb : Text) (op : List Json) : Bool :=
  (verb = ascii "d" && op.length = 0) ||
  (verb ≠ ascii "d" && verb ≠ ascii "p" && op.length = 1) ||
  (verb = ascii "p" && op.length = 3)

/-- The path of a tuple and the elements after it. -/
def resolve (paths : Paths) (previous : Option Json) (verb : Text) (op : List Json) :
    Except DeltaError (Json × List Json) :=
  if short verb op then
    match previous with
    | none => .error (.path [])
    | some path => .ok (path, op)
  else
    match op with
    | .num ref :: rest =>
      match Assoc.get ref paths with
      | none => .error (.id ref.num.toNat)
      | some path => .ok (path, rest)
    | ref :: rest => .ok (ref, rest)
    | [] => .error (.path [])

/-- `path.length === 0` -/
def isRoot : Json → Bool
  | .arr [] => true
  | _ => false

/-- One turn of the decoder's loop, its tuple checked: what it puts out, the dictionary, and
`previous`. -/
def decodeTuple (paths : Paths) (previous : Option Json) (verb : Text) (op : List Json) :
    Except DeltaError (List Json × Paths × Option Json) :=
  if verb = ascii "#" then
    match op with
    | [.num id, path] => .ok ([], Assoc.set id path paths, previous)
    | _ => .error (.type "# shape")
  else if verb = ascii "r" then .ok ([.arr (.str verb :: op)], [], none)
  else do
    let (path, args) ← resolve paths previous verb op
    if verb ≠ ascii "p" ∧ verb ≠ ascii "m" ∧ isRoot path then .error (.path [])
    else .ok ([.arr (.str verb :: path :: args)], paths, some path)

def decodeOp (paths : Paths) (previous : Option Json) (op : Json) :
    Except DeltaError (List Json × Paths × Option Json) := do
  assertValidWireOp op
  match op with
  | .arr (.str verb :: op) => decodeTuple paths previous verb op
  | _ => .error (.type "op is not a tuple")

/-- The loop, with the dictionary it leaves also when it throws. -/
def decodeFrom (paths : Paths) (previous : Option Json) :
    List Json → Except DeltaError (List Json) × Paths
  | [] => (.ok [], paths)
  | op :: wire =>
    match decodeOp paths previous op with
    | .error e => (.error e, paths)
    | .ok (out, paths, previous) =>
      let rest := decodeFrom paths previous wire
      (rest.1.map (out ++ ·), rest.2)

/-- `decode` of a value of any shape: a string is read by its characters. -/
def decode (paths : Paths) : Json → Except DeltaError (List Json) × Paths
  | .arr wire => decodeFrom paths none wire
  | .str text => decodeFrom paths none (text.map fun unit => .str [unit])
  | _ => (.error (.type "wire is not iterable"), paths)

/-- Values fed to one decoder one after another, each decoded or refused. -/
def decodeAll (paths : Paths) : List Json → List (Except DeltaError (List Json))
  | [] => []
  | wire :: wires =>
    let result := decode paths wire
    result.1 :: decodeAll result.2 wires

/-! ### A checked tuple is one that is written -/

end Wire

theorem natural_eq {n : ℕ} (h : natural value = some n) : value = .num n := by
  cases value with
  | num q =>
    rw [natural] at h
    split_ifs at h with hq
    cases h
    obtain ⟨hden, hnum⟩ := hq
    have hq : q = ((q.num.toNat : ℕ) : ℚ) := by
      rw [← Int.cast_natCast, Int.toNat_of_nonneg hnum]
      exact ((Rat.den_eq_one_iff q).mp hden).symm
    exact congrArg Json.num hq
  | _ => cases h

theorem count_eq {message : String} {n : ℕ} (h : count value message = .ok n) : value = .num n := by
  rw [count] at h
  cases hn : natural value with
  | none =>
    rw [hn] at h
    cases h
  | some m =>
    rw [hn] at h
    cases h
    exact natural_eq hn

theorem safePath_eq {path : Path} (h : safePath items = .ok path) :
    items = path.map Seg.toJson ∧ SafePath path := by
  induction items generalizing path with
  | nil =>
    cases h
    exact ⟨rfl, fun name hname => (by cases hname)⟩
  | cons seg items ih =>
    have htail : ∀ first : Seg, (∀ name, first = .key name → name ∉ RESERVED_SEGMENTS) →
        seg = first.toJson → (safePath items).map (cons first) = .ok path →
        seg :: items = path.map Seg.toJson ∧ SafePath path := by
      intro first hfirst hseg hrest
      cases hitems : safePath items with
      | error e =>
        rw [hitems] at hrest
        cases hrest
      | ok rest =>
        rw [hitems] at hrest
        cases hrest
        obtain ⟨heq, hsafe⟩ := ih hitems
        refine ⟨by rw [hseg, heq]; rfl, fun name hname => ?_⟩
        obtain hname | hname := mem_cons.mp hname
        · exact hfirst name hname.symm
        · exact hsafe name hname
    cases seg with
    | str name =>
      rw [safePath] at h
      split_ifs at h with hname
      refine htail (.key name) (fun other hother => ?_) rfl h
      cases hother
      exact hname
    | num q =>
      rw [safePath] at h
      · cases hn : natural (.num q) with
        | none =>
          rw [hn] at h
          cases h
        | some index =>
          rw [hn] at h
          exact htail (.idx index) (fun _ hother => by cases hother) (natural_eq hn) h
      · intro name hname
        cases hname
    | _ => cases h

theorem okRef_eq {ref : PathRef} (h : okRef value = .ok ref) :
    value = ref.toJson ∧ ∀ path, ref = .path path → SafePath path := by
  cases value with
  | num q =>
    rw [okRef] at h
    cases hn : natural (.num q) with
    | none =>
      rw [hn] at h
      cases h
    | some id =>
      rw [hn] at h
      cases h
      exact ⟨natural_eq hn, fun _ hpath => by cases hpath⟩
  | arr items =>
    rw [okRef] at h
    cases hp : safePath items with
    | error e =>
      rw [hp] at h
      cases h
    | ok path =>
      rw [hp] at h
      cases h
      obtain ⟨heq, hsafe⟩ := safePath_eq hp
      refine ⟨congrArg Json.arr heq, fun other hother => ?_⟩
      cases hother
      exact hsafe
  | _ => cases h

theorem permutation_eq {length : ℕ} {seen : List ℕ} {p : List ℕ}
    (h : permutation length seen items = .ok p) :
    items = p.map (fun (index : ℕ) => .num index) ∧ checkPermutation length seen p = .ok () := by
  induction items generalizing seen p with
  | nil =>
    cases h
    exact ⟨rfl, rfl⟩
  | cons value rest ih =>
    rw [permutation] at h
    cases hn : natural value with
    | none =>
      rw [hn] at h
      cases h
    | some index =>
      rw [hn] at h
      dsimp only at h
      split_ifs at h with hbad
      cases hrest : permutation length (index :: seen) rest with
      | error e =>
        rw [hrest] at h
        cases h
      | ok p' =>
        rw [hrest] at h
        cases h
        obtain ⟨heq, hcheck⟩ := ih hrest
        refine ⟨by rw [natural_eq hn, heq]; rfl, ?_⟩
        rw [checkPermutation, if_neg hbad]
        exact hcheck

theorem okPermutation_eq {p : List ℕ} (h : okPermutation value = .ok p) :
    value = .arr (p.map fun (index : ℕ) => .num index) ∧ assertPermutation p = .ok () := by
  cases value with
  | arr items =>
    obtain ⟨heq, hcheck⟩ := permutation_eq h
    have hlength : items.length = p.length := by rw [heq, length_map]
    rw [hlength] at hcheck
    exact ⟨congrArg Json.arr heq, hcheck⟩
  | _ => cases h

theorem okText_eq {text : Text} (h : okText value = .ok text) : value = .str text := by
  cases value with
  | str other =>
    cases h
    rfl
  | _ => cases h

theorem okItems_eq (h : okItems value = .ok items) : value = .arr items := by
  cases value with
  | arr other =>
    cases h
    rfl
  | _ => cases h

variable {edit : Edit}

theorem okSplice_eq {index remove items : Json} (h : okSplice index remove items = .ok edit) :
    ∃ i r xs, edit = .splice i r xs ∧ index = .num i ∧ remove = .num r ∧ items = .arr xs := by
  obtain ⟨i, hi, h⟩ := bind_eq_ok h
  obtain ⟨r, hr, h⟩ := bind_eq_ok h
  obtain ⟨xs, hxs, h⟩ := bind_eq_ok h
  cases h
  exact ⟨i, r, xs, rfl, count_eq hi, count_eq hr, okItems_eq hxs⟩

/-- What the check of a tuple establishes of what the tuple says. -/
def WireOp.Checked : WireOp → Prop
  | .replace _ => True
  | .define _ path => SafePath path
  | .edit ref e => (∀ path, ref = some (.path path) → SafePath path) ∧
      ∀ p, e = .permute p → assertPermutation p = .ok ()

theorem checked_ref {ref : PathRef} (h : okRef value = .ok ref)
    (hedit : ∀ p, edit = .permute p → assertPermutation p = .ok ()) :
    (WireOp.edit (some ref) edit).Checked := by
  refine ⟨fun path hpath => ?_, hedit⟩
  exact (okRef_eq h).2 path (Option.some.inj hpath)

theorem checked_short (hedit : ∀ p, edit = .permute p → assertPermutation p = .ok ()) :
    (WireOp.edit none edit).Checked :=
  ⟨fun _ hpath => (by cases hpath), hedit⟩

theorem assertValidWireOp_eq {tuple : List Json} {op : WireOp}
    (h : assertValidWireOp tuple = .ok op) : tuple = op.toTuple ∧ op.Checked := by
  obtain ⟨verb, args, rfl⟩ : ∃ verb args, tuple = .str verb :: args := by
    cases tuple with
    | nil => cases h
    | cons first args =>
      cases first with
      | str verb => exact ⟨verb, args, rfl⟩
      | _ => cases h
  unfold assertValidWireOp at h
  dsimp only at h
  split_ifs at h with hr hs hd ha ht hp hm hdefine
  · subst hr
    split at h
    · cases h
      exact ⟨rfl, trivial⟩
    · cases h
  · subst hs
    split at h
    · obtain ⟨ref, href, h⟩ := bind_eq_ok h
      cases h
      exact ⟨by rw [(okRef_eq href).1]; rfl, checked_ref href fun _ hedit => by cases hedit⟩
    · cases h
      exact ⟨rfl, checked_short fun _ hedit => by cases hedit⟩
    · cases h
  · subst hd
    split at h
    · obtain ⟨ref, href, h⟩ := bind_eq_ok h
      cases h
      exact ⟨by rw [(okRef_eq href).1]; rfl, checked_ref href fun _ hedit => by cases hedit⟩
    · cases h
      exact ⟨rfl, checked_short fun _ hedit => by cases hedit⟩
    · cases h
  · subst ha
    split at h
    · obtain ⟨ref, href, h⟩ := bind_eq_ok h
      obtain ⟨text, htext, h⟩ := bind_eq_ok h
      cases h
      refine ⟨?_, checked_ref href fun _ hedit => by cases hedit⟩
      rw [(okRef_eq href).1, okText_eq htext]
      rfl
    · obtain ⟨text, htext, h⟩ := map_eq_ok h
      subst h
      exact ⟨by rw [okText_eq htext]; rfl, checked_short fun _ hedit => by cases hedit⟩
    · cases h
  · subst ht
    split at h
    · obtain ⟨ref, href, h⟩ := bind_eq_ok h
      obtain ⟨n, hn, h⟩ := bind_eq_ok h
      cases h
      refine ⟨?_, checked_ref href fun _ hedit => by cases hedit⟩
      rw [(okRef_eq href).1, count_eq hn]
      rfl
    · obtain ⟨n, hn, h⟩ := map_eq_ok h
      subst h
      exact ⟨by rw [count_eq hn]; rfl, checked_short fun _ hedit => by cases hedit⟩
    · cases h
  · subst hp
    split at h
    · obtain ⟨ref, href, h⟩ := bind_eq_ok h
      obtain ⟨edit, hedit, h⟩ := bind_eq_ok h
      cases h
      obtain ⟨i, r, xs, rfl, hi, hr, hxs⟩ := okSplice_eq hedit
      refine ⟨?_, checked_ref href fun _ hedit => by cases hedit⟩
      rw [(okRef_eq href).1, hi, hr, hxs]
      rfl
    · obtain ⟨edit, hedit, h⟩ := map_eq_ok h
      obtain ⟨i, r, xs, rfl, hi, hr, hxs⟩ := okSplice_eq hedit
      subst h
      refine ⟨?_, checked_short fun _ hedit => by cases hedit⟩
      rw [hi, hr, hxs]
      rfl
    · cases h
  · subst hm
    split at h
    · obtain ⟨ref, href, h⟩ := bind_eq_ok h
      obtain ⟨p, hp, h⟩ := bind_eq_ok h
      cases h
      obtain ⟨heq, hcheck⟩ := okPermutation_eq hp
      refine ⟨?_, checked_ref href fun _ hedit => ?_⟩
      · rw [(okRef_eq href).1, heq]
        rfl
      · cases hedit
        exact hcheck
    · obtain ⟨p, hp, h⟩ := map_eq_ok h
      obtain ⟨heq, hcheck⟩ := okPermutation_eq hp
      subst h
      refine ⟨by rw [heq]; rfl, checked_short fun _ hedit => ?_⟩
      cases hedit
      exact hcheck
    · cases h
  · subst hdefine
    split at h
    · obtain ⟨id, hid, h⟩ := bind_eq_ok h
      obtain ⟨path, hpath, h⟩ := bind_eq_ok h
      cases h
      obtain ⟨heq, hsafe⟩ := safePath_eq hpath
      exact ⟨by rw [count_eq hid, heq]; rfl, hsafe⟩
    · cases h

/-! ### What comes out -/

namespace Wire
variable {path : Path} {paths : Paths} {previous : Option Json}

/-- A path as received that passed its check. -/
def Safe (path : Json) : Prop :=
  ∃ p : Path, path = p.toJson ∧ SafePath p

/-- An operation that the check of decoded ones accepts: a replacement, or an edit at a path of
safe segments whose indices and counts are natural numbers, the root only where the edit may be
there. -/
def Accepted (op : Json) : Prop :=
  assertValidOp op = .ok () ∧
    ∃ o : Op, op = o.toJson ∧ ∀ path edit, o = .edit path edit → Op.Valid path edit

theorem assertPathArg_ok {path : Path} {nonEmpty : Bool} (h : SafePath path)
    (hroot : nonEmpty = true → path ≠ []) : assertPathArg path.toJson nonEmpty = .ok () := by
  have hsome : ¬ (nonEmpty ∧ (path.map Seg.toJson).length = 0) := by
    rintro ⟨hne, hzero⟩
    exact hroot hne (map_eq_nil_iff.mp (length_eq_zero_iff.mp hzero))
  rw [Path.toJson, assertPathArg, if_neg hsome, safePath_toJson h]
  rfl

variable {edit : Edit}

theorem assertValidOp_edit (h : Op.Valid path edit) :
    assertValidOp (Op.toJson (.edit path edit)) = .ok () := by
  have hpath : assertPathArg path.toJson (!edit.atRoot) = .ok () := by
    refine assertPathArg_ok h.safe fun hroot => h.nonempty ?_
    rw [← Bool.not_eq_true', hroot]
  cases edit with
  | set value | delete | append text => exact hpath
  | truncate n =>
    have hrun : assertValidOp (Op.toJson (.edit path (.truncate n))) =
        (count (.num n) "t shape").bind fun _ => assertPathArg path.toJson true := rfl
    rw [hrun, count, natural_num]
    exact hpath
  | splice index remove items =>
    have hrun : assertValidOp (Op.toJson (.edit path (.splice index remove items))) =
        (assertPathArg path.toJson false).bind fun _ =>
          (okSplice (.num index) (.num remove) (.arr items)).bind fun _ => .ok () := rfl
    have hroot : assertPathArg path.toJson false = .ok () := hpath
    rw [hrun, hroot, okSplice_num]
    rfl
  | permute p =>
    have hrun : assertValidOp (Op.toJson (.edit path (.permute p))) =
        (assertPathArg path.toJson false).bind fun _ =>
          (okPermutation (.arr (p.map fun (index : ℕ) => .num index))).bind fun _ => .ok () := rfl
    have hroot : assertPathArg path.toJson false = .ok () := hpath
    rw [hrun, hroot, okPermutation_args (h.permutation p rfl)]
    rfl

theorem accepted_replace (value : Json) : Accepted (Op.toJson (.replace value)) :=
  ⟨rfl, _, rfl, fun _ _ h => (by cases h)⟩

theorem accepted_edit (h : Op.Valid path edit) : Accepted (Op.toJson (.edit path edit)) := by
  refine ⟨assertValidOp_edit h, _, rfl, fun path' edit' heq => ?_⟩
  cases heq
  exact h

/-! ### One tuple -/

theorem short_args (edit : Edit) : short edit.verb edit.args = true := by
  cases edit <;> rfl

theorem short_ref (edit : Edit) (ref : Json) : short edit.verb (ref :: edit.args) = false := by
  cases edit <;> rfl

theorem verb_atRoot (h : edit.atRoot = false) : edit.verb ≠ ascii "p" ∧ edit.verb ≠ ascii "m" := by
  cases edit with
  | set value => exact (by decide : ascii "s" ≠ ascii "p" ∧ ascii "s" ≠ ascii "m")
  | delete => decide
  | append text => exact (by decide : ascii "a" ≠ ascii "p" ∧ ascii "a" ≠ ascii "m")
  | truncate n => exact (by decide : ascii "t" ≠ ascii "p" ∧ ascii "t" ≠ ascii "m")
  | splice index remove items => cases h
  | permute p => cases h

theorem verb_ne (edit : Edit) : edit.verb ≠ ascii "#" ∧ edit.verb ≠ ascii "r" := by
  have hall : ∀ verb ∈ [ascii "s", ascii "d", ascii "a", ascii "t", ascii "p", ascii "m"],
      verb ≠ ascii "#" ∧ verb ≠ ascii "r" := by decide
  refine hall edit.verb ?_
  cases edit <;> simp [Edit.verb]

theorem resolve_safe {ref : Option PathRef} {path : Json} {args : List Json}
    (hchecked : (WireOp.edit ref edit).Checked)
    (hpaths : ∀ id path, Assoc.get id paths = some path → Safe path)
    (hprevious : ∀ path, previous = some path → Safe path)
    (h : resolve paths previous edit.verb (ref.toList.map PathRef.toJson ++ edit.args) =
      .ok (path, args)) : Safe path ∧ args = edit.args := by
  cases ref with
  | none =>
    change resolve paths previous edit.verb edit.args = _ at h
    unfold resolve at h
    rw [if_pos (short_args edit)] at h
    cases previous with
    | none => cases h
    | some known =>
      cases h
      exact ⟨hprevious _ rfl, rfl⟩
  | some ref =>
    change resolve paths previous edit.verb (ref.toJson :: edit.args) = _ at h
    unfold resolve at h
    rw [if_neg (by rw [short_ref]; decide)] at h
    cases ref with
    | path p =>
      cases h
      exact ⟨⟨p, rfl, hchecked.1 p rfl⟩, rfl⟩
    | id id =>
      dsimp only [PathRef.toJson] at h
      cases hget : Assoc.get (id : ℚ) paths with
      | none =>
        rw [hget] at h
        cases h
      | some known =>
        rw [hget] at h
        cases h
        exact ⟨hpaths _ _ hget, rfl⟩

theorem decodeOp_accepted {paths' : Paths} {previous' : Option Json} {op : Json} {out : List Json}
    (hpaths : ∀ id path, Assoc.get id paths = some path → Safe path)
    (hprevious : ∀ path, previous = some path → Safe path)
    (h : decodeOp paths previous op = .ok (out, paths', previous')) :
    (∀ o ∈ out, Accepted o) ∧ (∀ id path, Assoc.get id paths' = some path → Safe path) ∧
      ∀ path, previous' = some path → Safe path := by
  obtain ⟨_, hvalid, h⟩ := bind_eq_ok h
  obtain ⟨tuple, rfl⟩ : ∃ tuple, op = .arr tuple := by
    cases op with
    | arr tuple => exact ⟨tuple, rfl⟩
    | _ => cases hvalid
  obtain ⟨said, hsaid, -⟩ := map_eq_ok hvalid
  obtain ⟨rfl, hchecked⟩ := assertValidWireOp_eq hsaid
  cases said with
  | replace value =>
    cases h
    refine ⟨fun o ho => ?_, fun id path hget => (by cases hget), fun path hget => (by cases hget)⟩
    rw [mem_singleton.mp ho]
    exact accepted_replace value
  | define id path =>
    cases h
    refine ⟨fun o ho => (by cases ho), fun id' path' hget => ?_, hprevious⟩
    rw [Assoc.get_set] at hget
    split_ifs at hget with hid
    · cases hget
      exact ⟨path, rfl, hchecked⟩
    · exact hpaths id' path' hget
  | edit ref edit =>
    change decodeTuple paths previous edit.verb (ref.toList.map PathRef.toJson ++ edit.args) =
      _ at h
    unfold decodeTuple at h
    rw [if_neg (verb_ne edit).1, if_neg (verb_ne edit).2] at h
    obtain ⟨⟨path, args⟩, hresolve, h⟩ := bind_eq_ok h
    obtain ⟨⟨p, rfl, hsafe⟩, rfl⟩ := resolve_safe hchecked hpaths hprevious hresolve
    dsimp only at h
    split_ifs at h with hroot
    cases h
    have hop : Op.Valid p edit := by
      refine ⟨hsafe, fun hat hnil => hroot ?_, hchecked.2⟩
      subst hnil
      exact ⟨(verb_atRoot hat).1, (verb_atRoot hat).2, rfl⟩
    refine ⟨fun o ho => ?_, hpaths, fun path hpath => ?_⟩
    · rw [mem_singleton.mp ho]
      exact accepted_edit hop
    · cases hpath
      exact ⟨p, rfl, hsafe⟩

/-! ### Batches -/

theorem decodeFrom_accepted {wire : List Json}
    (hpaths : ∀ id path, Assoc.get id paths = some path → Safe path)
    (hprevious : ∀ path, previous = some path → Safe path) :
    (∀ ops, (decodeFrom paths previous wire).1 = .ok ops → ∀ op ∈ ops, Accepted op) ∧
      ∀ id path, Assoc.get id (decodeFrom paths previous wire).2 = some path → Safe path := by
  induction wire generalizing paths previous with
  | nil =>
    refine ⟨fun ops hops op hop => ?_, hpaths⟩
    cases hops
    cases hop
  | cons op wire ih =>
    rw [decodeFrom]
    cases hstep : decodeOp paths previous op with
    | error e => exact ⟨fun ops hops => (by cases hops), hpaths⟩
    | ok next =>
      obtain ⟨out, paths', previous'⟩ := next
      obtain ⟨hout, hpaths', hprevious'⟩ := decodeOp_accepted hpaths hprevious hstep
      obtain ⟨hrest, hafter⟩ := ih hpaths' hprevious'
      refine ⟨fun ops hops op hop => ?_, hafter⟩
      obtain ⟨rest, heq, rfl⟩ := map_eq_ok hops
      obtain hop | hop := mem_append.mp hop
      · exact hout op hop
      · exact hrest rest heq op hop

theorem decode_accepted (wire : Json)
    (hpaths : ∀ id path, Assoc.get id paths = some path → Safe path) :
    (∀ ops, (decode paths wire).1 = .ok ops → ∀ op ∈ ops, Accepted op) ∧
      ∀ id path, Assoc.get id (decode paths wire).2 = some path → Safe path := by
  have hnone : ∀ path, (none : Option Json) = some path → Safe path := fun _ h => (by cases h)
  cases wire with
  | arr wire | str text => exact decodeFrom_accepted hpaths hnone
  | _ => exact ⟨fun ops hops => (by cases hops), hpaths⟩

theorem decodeAll_accepted (wires : List Json)
    (hpaths : ∀ id path, Assoc.get id paths = some path → Safe path) :
    ∀ result ∈ decodeAll paths wires, ∀ ops, result = .ok ops → ∀ op ∈ ops, Accepted op := by
  induction wires generalizing paths with
  | nil =>
    intro result hresult
    cases hresult
  | cons wire wires ih =>
    obtain ⟨hfirst, hafter⟩ := decode_accepted wire hpaths
    intro result hresult ops hops
    obtain rfl | hresult := mem_cons.mp hresult
    · exact hfirst ops hops
    · exact ih hafter result hresult ops hops

/-! ### The decoder of checked tuples -/

/-- Whatever is fed to one decoder, each value is refused or gives only operations that the check of
decoded ones accepts. Applied to anything, all of them or those before one that throws, they write
at locations in format alone. -/
theorem decoder_output_valid (wires : List Json) :
    ∀ result ∈ decodeAll [] wires, ∀ ops, result = .ok ops → (∀ op ∈ ops, Accepted op) ∧
      ∀ applied : List (OpOf (Ref × Json)),
        applied.map (fun op => (op.map (·.2)).toOp.toJson) <+: ops →
        ∀ (heap : Heap) (root : Ref) (heap' : Heap) (root' : Ref),
          heap.applyOps root (applied.map (·.map (·.1))) = .ok (heap', root') →
          heap.Written root heap' root' :=
  fun result hresult ops hops =>
    ⟨decodeAll_accepted wires (fun _ _ h => by cases h) result hresult ops hops,
      fun _ _ _ _ _ _ h => Heap.applyOps_written h⟩

/-- An id defined, used and left out; a batch that fails after defining another, used by the next,
which deletes a member. -/
theorem decoder_output_valid_ids : Accepted (Op.toJson (.edit [.key (ascii "b")] .delete)) ∧
    Heap.Written [.obj [(ascii "b", .null)]] (.container 0) [.obj []] (.container 0) := by
  have hvalid := decoder_output_valid
    [.arr [.arr [.str (ascii "#"), .num 0, .arr [.str (ascii "a")]],
      .arr [.str (ascii "s"), .num 0, .null], .arr [.str (ascii "d")]],
    .arr [.arr [.str (ascii "#"), .num 1, .arr [.str (ascii "b")]], .null],
    .arr [.arr [.str (ascii "d"), .num 1]]]
    (.ok [Op.toJson (.edit [.key (ascii "b")] .delete)])
    (mem_cons_of_mem _ (mem_cons_of_mem _ (mem_singleton.mpr (by rfl)))) _ rfl
  exact ⟨hvalid.1 _ (mem_singleton.mpr rfl),
    hvalid.2 [.edit [.key (ascii "b")] .delete] (prefix_refl _) _ _ _ _ rfl⟩

/-- The largest integer below which every integer is a number of its own. -/
def MAX_SAFE_INTEGER : ℕ := 9007199254740991

def Edit.SafeIntegers : Edit → Prop
  | .truncate n => n ≤ MAX_SAFE_INTEGER
  | .splice index remove _ => index ≤ MAX_SAFE_INTEGER ∧ remove ≤ MAX_SAFE_INTEGER
  | .permute p => ∀ index ∈ p, index ≤ MAX_SAFE_INTEGER
  | _ => True

def Op.SafeIntegers : Op → Prop
  | .replace _ => True
  | .edit path e => (∀ index, Seg.idx index ∈ path → index ≤ MAX_SAFE_INTEGER) ∧
      Edit.SafeIntegers e

/-- A count past the safe integers passes both checks. -/
theorem decoder_output_unsafe : ¬ ∀ wires, ∀ result ∈ decodeAll [] wires, ∀ ops,
    result = .ok ops → ∀ op ∈ ops, Accepted op ∧ ∃ o : Op, op = o.toJson ∧ Op.SafeIntegers o := by
  intro h
  obtain ⟨-, o, ho, hsafe⟩ := h
    [.arr [.arr [.str (ascii "t"), .arr [.str (ascii "x")], .num 9007199254740992]]]
    (.ok [.arr [.str (ascii "t"), .arr [.str (ascii "x")], .num 9007199254740992]])
    (mem_singleton.mpr (by rfl)) _ rfl _ (mem_singleton.mpr rfl)
  cases o with
  | replace value => cases ho
  | edit path edit =>
    cases edit with
    | truncate n =>
      have hn : (9007199254740992 : ℚ) = (n : ℕ) := by
        injection ho with ho
        injection ho with _ ho
        injection ho with _ ho
        injection ho with ho
        injection ho
      have hn : n = 9007199254740992 := by exact_mod_cast hn.symm
      have hle : n ≤ MAX_SAFE_INTEGER := hsafe.2
      rw [hn] at hle
      exact absurd hle (by decide)
    | _ => cases ho

end Wire

end KnightCode.Delta
