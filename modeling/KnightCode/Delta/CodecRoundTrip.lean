import KnightCode.Delta.Codec
import KnightCode.Library.JsonParse

/-!
# The codec round trip

A decoder fed what one encoder wrote keeps in lockstep with it: every id the encoder may still use
resolves to its path, and a left-out path is the one before. Both start again at a replacement, so
a fresh decoder may join there, and only a batch's own operations leave their path out, so batches
may be joined into larger ones.
-/

namespace KnightCode.Delta

open List
variable {path : Path} {edit : Edit} {d : Decoder} {previous : Option Path} {e : Encoder}

/-! ### Path keys -/

theorem pathTail_head (path : Path) : ∀ c ∈ (pathTail path).head?, JsonText.isDigit c = false := by
  cases path with
  | nil =>
    rintro c ⟨⟩
    rfl
  | cons seg path =>
    intro c hc
    have hcomma : (pathTail (seg :: path)).head? = some 44 := rfl
    rw [hcomma] at hc
    cases hc
    decide

theorem Seg.stringify_append_inj {seg seg' : Seg} {t t' : Text}
    (ht : ∀ c ∈ t.head?, JsonText.isDigit c = false)
    (ht' : ∀ c ∈ t'.head?, JsonText.isDigit c = false)
    (h : seg.stringify ++ t = seg'.stringify ++ t') : seg = seg' ∧ t = t' := by
  have hmixed : ∀ (name : Text) (n : ℕ) (t t' : Text),
      JsonText.quote name ++ t ≠ JsonText.decimal n ++ t' := by
    intro name n t t' he
    obtain ⟨c, l, hd⟩ := exists_cons_of_ne_nil (JsonText.decimal_ne_nil n)
    have hc : JsonText.isDigit c = true :=
      JsonText.isDigit_of_mem_decimal (hd ▸ mem_cons_self)
    rw [hd] at he
    have hhead : (34 : UInt16) = c := (cons.inj he).1
    rw [← hhead] at hc
    exact absurd hc (by decide)
  cases seg with
  | key name =>
    cases seg' with
    | key name' =>
      obtain ⟨hn, htt⟩ := JsonText.quote_append_inj h
      exact ⟨congrArg _ hn, htt⟩
    | idx n' => exact absurd h (hmixed name n' t t')
  | idx n =>
    cases seg' with
    | key name' => exact absurd h.symm (hmixed name' n t' t)
    | idx n' =>
      obtain ⟨hn, htt⟩ := JsonText.decimal_append_inj ht ht' h
      exact ⟨congrArg _ hn, htt⟩

theorem pathTail_injective {path' : Path} (h : pathTail path = pathTail path') : path = path' := by
  induction path generalizing path' with
  | nil =>
    cases path' with
    | nil => rfl
    | cons seg' path' => exact absurd (cons.inj h).1 (by decide)
  | cons seg path ih =>
    cases path' with
    | nil => exact absurd (cons.inj h).1 (by decide)
    | cons seg' path' =>
      have htail := (cons.inj h).2
      obtain ⟨hs, ht⟩ := Seg.stringify_append_inj (pathTail_head path) (pathTail_head path') htail
      rw [hs, ih ht]

theorem pathKey_injective : Function.Injective pathKey := by
  have hclose : ∀ (seg : Seg) (t : Text), seg.stringify ++ t ≠ ascii "]" := by
    intro seg t h
    cases seg with
    | key name => exact absurd (cons.inj h).1 (by decide)
    | idx n =>
      obtain ⟨c, l, hd⟩ := exists_cons_of_ne_nil (JsonText.decimal_ne_nil n)
      have hc : JsonText.isDigit c = true :=
        JsonText.isDigit_of_mem_decimal (hd ▸ mem_cons_self)
      rw [Seg.stringify, hd] at h
      have hhead : c = (93 : UInt16) := (cons.inj h).1
      rw [hhead] at hc
      exact absurd hc (by decide)
  intro path path' h
  cases path with
  | nil =>
    cases path' with
    | nil => rfl
    | cons seg' path' => exact absurd (cons.inj h).2.symm (hclose seg' _)
  | cons seg path =>
    cases path' with
    | nil => exact absurd (cons.inj h).2 (hclose seg _)
    | cons seg' path' =>
      obtain ⟨hs, ht⟩ := Seg.stringify_append_inj (pathTail_head path) (pathTail_head path')
        (cons.inj h).2
      rw [hs, pathTail_injective ht]

/-! ### Tuples are read back -/

@[simp] theorem natural_num (n : ℕ) : natural (.num n) = some n := by
  simp [natural]

theorem safePath_toJson (h : SafePath path) : safePath (path.map Seg.toJson) = .ok path := by
  induction path with
  | nil => rfl
  | cons seg path ih =>
    have hpath := ih (fun name hn => h name (mem_cons_of_mem _ hn))
    cases seg with
    | key name =>
      have hname := h name mem_cons_self
      simp only [map_cons, Seg.toJson, safePath, if_neg hname, hpath]
      rfl
    | idx index =>
      simp only [map_cons, Seg.toJson, safePath, natural_num, hpath]
      rfl

theorem okRef_path (h : SafePath path) :
    okRef (PathRef.toJson (.path path)) = .ok (.path path) := by
  simp only [PathRef.toJson, Path.toJson, okRef, safePath_toJson h]
  rfl

theorem okRef_id (id : ℕ) : okRef (PathRef.toJson (.id id)) = .ok (.id id) := by
  simp only [PathRef.toJson, okRef, natural_num]

theorem permutation_num {length : ℕ} {seen p : List ℕ}
    (h : checkPermutation length seen p = .ok ()) :
    permutation length seen (p.map fun (index : ℕ) => .num index) = .ok p := by
  induction p generalizing seen with
  | nil => rfl
  | cons index rest ih =>
    rw [checkPermutation] at h
    split_ifs at h with hc
    simp only [map_cons, permutation, natural_num, if_neg hc, ih h]
    rfl

theorem okPermutation_args {p : List ℕ} (h : assertPermutation p = .ok ()) :
    okPermutation (.arr (p.map fun (index : ℕ) => .num index)) = .ok p := by
  simp only [okPermutation, length_map]
  exact permutation_num h

theorem okSplice_num (index remove : ℕ) (items : List Json) :
    okSplice (.num index) (.num remove) (.arr items) = .ok (.splice index remove items) := by
  simp only [okSplice, count, natural_num]
  rfl

theorem assertValidWireOp_short (h : Op.Valid path edit) :
    assertValidWireOp (.str edit.verb :: edit.args) = .ok (.edit none edit) := by
  cases edit with
  | set value => rfl
  | delete => rfl
  | append text => rfl
  | truncate n =>
    have hrun : assertValidWireOp (.str (Edit.truncate n).verb :: (Edit.truncate n).args) =
        (count (.num n) "t count").map fun n => .edit none (.truncate n) := rfl
    rw [hrun]
    simp only [count, natural_num]
    rfl
  | splice index remove items =>
    have hrun : assertValidWireOp
        (.str (Edit.splice index remove items).verb :: (Edit.splice index remove items).args) =
        (okSplice (.num index) (.num remove) (.arr items)).map (.edit none) := rfl
    rw [hrun, okSplice_num]
    rfl
  | permute p =>
    have hrun : assertValidWireOp (.str (Edit.permute p).verb :: (Edit.permute p).args) =
        (okPermutation (.arr (p.map fun (index : ℕ) => .num index))).map
          fun p => .edit none (.permute p) := rfl
    rw [hrun, okPermutation_args (h.permutation p rfl)]
    rfl

theorem assertValidWireOp_ref (h : Op.Valid path edit) {ref : PathRef}
    (href : okRef ref.toJson = .ok ref) :
    assertValidWireOp (.str edit.verb :: ref.toJson :: edit.args) =
      .ok (.edit (some ref) edit) := by
  cases edit with
  | set value =>
    have hrun : assertValidWireOp (.str (Edit.set value).verb :: ref.toJson ::
        (Edit.set value).args) =
          (okRef ref.toJson).bind fun ref => .ok (.edit ref (.set value)) := rfl
    rw [hrun, href]
    rfl
  | delete =>
    have hrun : assertValidWireOp (.str Edit.delete.verb :: ref.toJson :: Edit.delete.args) =
        (okRef ref.toJson).bind fun ref => .ok (.edit ref .delete) := rfl
    rw [hrun, href]
    rfl
  | append text =>
    have hrun : assertValidWireOp (.str (Edit.append text).verb :: ref.toJson ::
        (Edit.append text).args) =
        (okRef ref.toJson).bind fun ref => .ok (.edit ref (.append text)) := rfl
    rw [hrun, href]
    rfl
  | truncate n =>
    have hrun : assertValidWireOp (.str (Edit.truncate n).verb :: ref.toJson ::
        (Edit.truncate n).args) =
        (okRef ref.toJson).bind fun ref =>
          (count (.num n) "t count").bind fun n => .ok (.edit ref (.truncate n)) := rfl
    rw [hrun, href]
    simp only [count, natural_num]
    rfl
  | splice index remove items =>
    have hrun : assertValidWireOp (.str (Edit.splice index remove items).verb :: ref.toJson ::
        (Edit.splice index remove items).args) =
        (okRef ref.toJson).bind fun ref =>
          (okSplice (.num index) (.num remove) (.arr items)).bind fun edit =>
            .ok (.edit ref edit) := rfl
    rw [hrun, href, okSplice_num]
    rfl
  | permute p =>
    have hrun : assertValidWireOp (.str (Edit.permute p).verb :: ref.toJson ::
        (Edit.permute p).args) =
        (okRef ref.toJson).bind fun ref =>
          (okPermutation (.arr (p.map fun (index : ℕ) => .num index))).bind fun p =>
            .ok (.edit ref (.permute p)) := rfl
    rw [hrun, href, okPermutation_args (h.permutation p rfl)]
    rfl

theorem assertValidWireOp_define (h : SafePath path) (id : ℕ) :
    assertValidWireOp [.str (ascii "#"), .num id, path.toJson] = .ok (.define id path) := by
  have hrun : assertValidWireOp [.str (ascii "#"), .num id, path.toJson] =
      (count (.num id) "# shape").bind fun id =>
        (safePath (path.map Seg.toJson)).bind fun path => .ok (.define id path) := rfl
  rw [hrun, safePath_toJson h]
  simp only [count, natural_num]
  rfl

/-! ### Lockstep -/

/-- Every id the encoder may use resolves to its path, and the path it leaves out is the one
before. -/
structure Lockstep (e : Encoder) (d : Decoder) (previous : Option Path) : Prop where
  ids : ∀ path id, Assoc.get (pathKey path) e.ids = some id → Assoc.get id d.paths = some path
  fresh : ∀ path id, Assoc.get (pathKey path) e.ids = some id → id < e.nextId
  previous : ∀ path, e.previous = some (pathKey path) → previous = some path

theorem lockstep_start : Lockstep encoder decoder none :=
  ⟨fun _ _ h => (by cases h), fun _ _ h => (by cases h), fun _ h => (by cases h)⟩

def reads (op : Op) (r : Except DeltaError (List Op × Decoder)) :
    Except DeltaError (List Op × Decoder) :=
  r.map fun (ops, d) => (op :: ops, d)

theorem decodeFrom_edit {tuple : List Json} {ref : Option PathRef} (h : Op.Valid path edit)
    (hread : assertValidWireOp tuple = .ok (.edit ref edit))
    (href : resolveRef d previous ref = .ok path) (wire : List (List Json)) :
    decodeFrom d previous (tuple :: wire) =
      reads (.edit path edit) (decodeFrom d (some path) wire) := by
  have hroot : ¬ (¬ edit.atRoot ∧ path = []) := by
    rintro ⟨hr, hp⟩
    exact h.nonempty (by simpa using hr) hp
  rw [decodeFrom, hread]
  simp only [bind, Except.bind, href, if_neg hroot]
  rfl

theorem decodeFrom_define (h : SafePath path) (id : ℕ) (wire : List (List Json)) :
    decodeFrom d previous ([.str (ascii "#"), .num id, path.toJson] :: wire) =
      decodeFrom { d with paths := Assoc.set id path d.paths } previous wire := by
  rw [decodeFrom, assertValidWireOp_define h]
  rfl

theorem decodeFrom_encodeOp (h : Lockstep e d previous) {op : Op} (hop : assertValidOp op = .ok ())
    (wire : List (List Json)) :
    ∃ d' previous', Lockstep (encodeOp e op).2 d' previous' ∧
      decodeFrom d previous ((encodeOp e op).1 ++ wire) =
        reads op (decodeFrom d' previous' wire) := by
  cases op with
  | replace value =>
    refine ⟨decoder, none, lockstep_start, ?_⟩
    have hread : assertValidWireOp [.str (ascii "r"), value] = .ok (.replace value) := rfl
    change decodeFrom d previous ([.str (ascii "r"), value] :: wire) = _
    rw [decodeFrom, hread]
    rfl
  | edit path edit =>
    have hv := assertValidOp_ok.mp hop
    by_cases hprev : e.previous = some (pathKey path)
    · have henc : encodeOp e (.edit path edit) = ([.str edit.verb :: edit.args], e) := by
        simp only [encodeOp, if_pos hprev]
      rw [henc]
      refine ⟨d, some path, ?_, ?_⟩
      · have hpath := h.previous path hprev
        rw [← hpath]
        exact h
      · apply decodeFrom_edit hv (assertValidWireOp_short hv)
        rw [h.previous path hprev]
        rfl
    · have hkeys : ∀ {path' : Path}, some (pathKey path) = some (pathKey path') →
          some path = some path' :=
        fun he => congrArg some (pathKey_injective (Option.some.inj he))
      cases hid : Assoc.get (pathKey path) e.ids with
      | some id =>
        have henc : encodeOp e (.edit path edit) =
            ([.str edit.verb :: PathRef.toJson (.id id) :: edit.args],
              { e with previous := some (pathKey path) }) := by
          simp only [encodeOp, if_neg hprev, hid]
        rw [henc]
        refine ⟨d, some path, ⟨h.ids, h.fresh, fun _ he => hkeys he⟩, ?_⟩
        apply decodeFrom_edit hv (assertValidWireOp_ref hv (okRef_id id))
        simp only [resolveRef, h.ids path id hid]
      | none =>
        by_cases hseen : pathKey path ∈ e.seen
        · have henc : encodeOp e (.edit path edit) =
              ([[.str (ascii "#"), .num e.nextId, path.toJson],
                .str edit.verb :: PathRef.toJson (.id e.nextId) :: edit.args],
                { e with
                  previous := some (pathKey path)
                  ids := Assoc.set (pathKey path) e.nextId e.ids
                  nextId := e.nextId + 1 }) := by
            simp only [encodeOp, if_neg hprev, hid, if_pos hseen]
          rw [henc]
          refine ⟨{ d with paths := Assoc.set e.nextId path d.paths }, some path,
            ⟨?_, ?_, fun _ he => hkeys he⟩, ?_⟩
          · intro path' id hget
            rw [Assoc.get_set] at hget
            split_ifs at hget with hkey
            · cases hget
              rw [Assoc.get_set_self, pathKey_injective hkey]
            · have hlt := h.fresh path' id hget
              rw [Assoc.get_set_ne (Nat.ne_of_gt hlt)]
              exact h.ids path' id hget
          · intro path' id hget
            rw [Assoc.get_set] at hget
            split_ifs at hget with hkey
            · cases hget
              exact lt_add_one _
            · exact Nat.lt_succ_of_lt (h.fresh path' id hget)
          · rw [cons_append, cons_append, decodeFrom_define hv.safe]
            apply decodeFrom_edit hv (assertValidWireOp_ref hv (okRef_id _))
            simp only [resolveRef, Assoc.get_set_self]
        · have henc : encodeOp e (.edit path edit) =
              ([.str edit.verb :: PathRef.toJson (.path path) :: edit.args],
                { e with
                  previous := some (pathKey path)
                  seen := pathKey path :: e.seen }) := by
            simp only [encodeOp, if_neg hprev, hid, if_neg hseen]
          rw [henc]
          refine ⟨d, some path, ⟨h.ids, h.fresh, fun _ he => hkeys he⟩, ?_⟩
          exact decodeFrom_edit hv (assertValidWireOp_ref hv (okRef_path hv.safe)) rfl wire

def readsAll (ops : List Op) (r : Except DeltaError (List Op × Decoder)) :
    Except DeltaError (List Op × Decoder) :=
  ops.foldr reads r

theorem readsAll_ok (ops rest : List Op) (d : Decoder) :
    readsAll ops (.ok (rest, d)) = .ok (ops ++ rest, d) := by
  induction ops with
  | nil => rfl
  | cons op ops ih =>
    change reads op (readsAll ops (.ok (rest, d))) = _
    rw [ih]
    rfl

def ValidOps (ops : List Op) : Prop :=
  ∀ op ∈ ops, assertValidOp op = .ok ()

theorem decodeFrom_encodeOps (h : Lockstep e d previous) {ops : List Op} (hops : ValidOps ops)
    (wire : List (List Json)) :
    ∃ d' previous', Lockstep (encodeOps e ops).2 d' previous' ∧
      decodeFrom d previous ((encodeOps e ops).1 ++ wire) =
        readsAll ops (decodeFrom d' previous' wire) := by
  induction ops generalizing e d previous with
  | nil => exact ⟨d, previous, h, rfl⟩
  | cons op ops ih =>
    obtain ⟨d₁, previous₁, h₁, hd₁⟩ := decodeFrom_encodeOp h (hops op mem_cons_self)
      ((encodeOps (encodeOp e op).2 ops).1 ++ wire)
    obtain ⟨d₂, previous₂, h₂, hd₂⟩ :=
      ih h₁ (fun op hop => hops op (mem_cons_of_mem _ hop))
    refine ⟨d₂, previous₂, h₂, ?_⟩
    have hout : (encodeOps e (op :: ops)).1 ++ wire =
        (encodeOp e op).1 ++ ((encodeOps (encodeOp e op).2 ops).1 ++ wire) := by
      simp only [encodeOps, append_assoc]
    rw [hout, hd₁, hd₂]
    rfl

theorem Lockstep.batch {previous' : Option Path} (h : Lockstep e d previous) :
    Lockstep { e with previous := none } d previous' :=
  ⟨h.ids, h.fresh, fun _ he => by cases he⟩

/-! ### Joined batches -/

def encoderAfter (e : Encoder) (batches : List (List Op)) : Encoder :=
  batches.foldl (fun e batch => (encode e batch).2) e

theorem encodeAll_append (e : Encoder) (batches batches' : List (List Op)) :
    encodeAll e (batches ++ batches') =
      encodeAll e batches ++ encodeAll (encoderAfter e batches) batches' := by
  induction batches generalizing e with
  | nil => rfl
  | cons batch batches ih =>
    simp only [cons_append, encodeAll, ih]
    rfl

@[simp] theorem length_encodeAll (e : Encoder) (batches : List (List Op)) :
    (encodeAll e batches).length = batches.length := by
  induction batches generalizing e with
  | nil => rfl
  | cons batch batches ih => simp [encodeAll, ih]

theorem decodeFrom_encodeAll (h : Lockstep { e with previous := none } d previous)
    {batches : List (List Op)} (hb : ∀ batch ∈ batches, ValidOps batch) :
    ∃ d', Lockstep { encoderAfter e batches with previous := none } d' none ∧
      decodeFrom d previous (encodeAll e batches).flatten = .ok (batches.flatten, d') := by
  induction batches generalizing e d previous with
  | nil => exact ⟨d, h.batch, rfl⟩
  | cons batch batches ih =>
    obtain ⟨d₁, previous₁, h₁, hd₁⟩ := decodeFrom_encodeOps h
      (hb batch mem_cons_self) (encodeAll (encode e batch).2 batches).flatten
    obtain ⟨d₂, h₂, hd₂⟩ :=
      ih h₁.batch (fun batch hm => hb batch (mem_cons_of_mem _ hm))
    refine ⟨d₂, h₂, ?_⟩
    exact hd₁.trans ((congrArg (readsAll batch) hd₂).trans (readsAll_ok ..))

theorem decodeAll_groups (h : Lockstep { e with previous := none } d none)
    {groups : List (List (List Op))} (hv : ∀ group ∈ groups, ∀ batch ∈ group, ValidOps batch)
    {wires : List (List (List (List Json)))} (hlen : wires.map length = groups.map length)
    (hwires : wires.flatten = encodeAll e groups.flatten) :
    decodeAll d (wires.map flatten) = .ok (groups.map flatten) := by
  induction groups generalizing e d wires with
  | nil =>
    have hnil : wires = [] := by simpa using hlen
    rw [hnil]
    rfl
  | cons group groups ih =>
    cases wires with
    | nil => cases hlen
    | cons wire wires =>
      simp only [map_cons, cons.injEq] at hlen
      rw [flatten_cons, flatten_cons, encodeAll_append] at hwires
      obtain ⟨hwire, hrest⟩ := append_inj hwires (by rw [length_encodeAll, hlen.1])
      obtain ⟨d', h', hd'⟩ := decodeFrom_encodeAll h (hv group mem_cons_self)
      have ih := ih h' (fun group hg => hv group (mem_cons_of_mem _ hg)) hlen.2 hrest
      simp only [map_cons, decodeAll, decode, hwire, hd', bind, Except.bind, ih]
      rfl

/-! ### Joining late -/

theorem encode_base (e : Encoder) {batch : List Op} (h : isBase batch = true) :
    encode e batch = encode encoder batch := by
  cases batch with
  | nil => cases h
  | cons op ops =>
    cases op with
    | replace value => rfl
    | edit path edit => cases h

theorem encodeAll_drop (e : Encoder) (batches : List (List Op)) (i : ℕ) :
    (encodeAll e batches).drop i =
      encodeAll (encoderAfter e (batches.take i)) (batches.drop i) := by
  by_cases hi : i ≤ batches.length
  · have hsplit := encodeAll_append e (batches.take i) (batches.drop i)
    rw [take_append_drop] at hsplit
    have hlen : (encodeAll e (batches.take i)).length = i := by simp [hi]
    rw [hsplit, drop_left' hlen]
  · have hle : batches.length ≤ i := le_of_not_ge hi
    rw [drop_eq_nil_of_le (by simpa using hle), drop_eq_nil_of_le hle]
    rfl

/-- A fresh decoder that starts with the first batch, or with any batch that begins with a
replacement, reads from there on exactly the operations that were encoded, however consecutive
batches are joined on the way. -/
theorem decode_encode (batches : List (List Op)) (hv : ∀ batch ∈ batches, ValidOps batch) (i : ℕ)
    (hi : i = 0 ∨ ∃ batch, batches[i]? = some batch ∧ isBase batch = true)
    (groups : List (List (List Op))) (hgroups : groups.flatten = batches.drop i)
    (wires : List (List (List (List Json))))
    (hwires : wires.flatten = (encodeAll encoder batches).drop i)
    (hlen : wires.map length = groups.map length) :
    decodeAll decoder (wires.map flatten) = .ok (groups.map flatten) := by
  have hvalid : ∀ group ∈ groups, ∀ batch ∈ group, ValidOps batch := by
    intro group hg batch hb
    have hmem : batch ∈ groups.flatten := mem_flatten.mpr ⟨group, hg, hb⟩
    rw [hgroups] at hmem
    exact hv batch (mem_of_mem_drop hmem)
  have hstart : encodeAll (encoderAfter encoder (batches.take i)) (batches.drop i) =
      encodeAll encoder (batches.drop i) := by
    cases hi with
    | inl h0 =>
      rw [h0]
      rfl
    | inr hbase =>
      obtain ⟨batch, hget, hb⟩ := hbase
      obtain ⟨hlt, rfl⟩ := List.getElem?_eq_some_iff.mp hget
      rw [drop_eq_getElem_cons hlt]
      simp only [encodeAll, encode_base _ hb]
  rw [encodeAll_drop, hstart, ← hgroups] at hwires
  exact decodeAll_groups lockstep_start.batch hvalid hlen hwires

/-- Three batches that use one path three times, the last two joined: the second one starts with a
replacement, where the decoder joins. -/
theorem decode_encode_joined :
    let path : Path := [.key (ascii "log"), .idx 2]
    let first := [Op.edit path (.append (ascii "a")), .edit path .delete]
    let second := [Op.replace .null, .edit path (.set (.arr [])), .edit [] (.permute [1, 0])]
    let third := [Op.edit path (.splice 0 1 []), .edit path (.truncate 3)]
    decodeAll decoder [((encodeAll encoder [first, second, third]).drop 1).flatten] =
      .ok [second ++ third] := by
  intro path first second third
  have hv : ∀ batch ∈ [first, second, third], ValidOps batch := by
    simp only [forall_mem_cons, ValidOps, first, second, third]
    exact ⟨⟨rfl, rfl, fun _ h => (by cases h)⟩, ⟨rfl, rfl, rfl, fun _ h => (by cases h)⟩,
      ⟨rfl, rfl, fun _ h => (by cases h)⟩, fun _ h => (by cases h)⟩
  have h := decode_encode [first, second, third] hv 1 (.inr ⟨second, rfl, rfl⟩)
    [[second, third]] rfl [(encodeAll encoder [first, second, third]).drop 1]
    (append_nil _) rfl
  simpa using h

end KnightCode.Delta
