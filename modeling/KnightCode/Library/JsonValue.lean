import KnightCode.Library.JsonText

/-!
# JSON values as text

A number stands for itself as the literal it is written as, an object for its members as they are
listed: where a key is listed twice, `get` reads the last. `print` writes a value without white
space; `parse` reads any JSON text.
-/

namespace JsonText

/-! ### Numbers -/

inductive NumberState
  | start
  | minus
  | zero
  | integer
  | point
  | fraction
  | exponent
  | sign
  | power

def NumberState.next (c : UInt16) : NumberState → Option NumberState
  | .start =>
    if c = 45 then some .minus
    else if c = 48 then some .zero
    else if isDigit c then some .integer
    else none
  | .minus => if c = 48 then some .zero else if isDigit c then some .integer else none
  | .zero => if c = 46 then some .point else if c = 101 ∨ c = 69 then some .exponent else none
  | .integer =>
    if isDigit c then some .integer
    else if c = 46 then some .point
    else if c = 101 ∨ c = 69 then some .exponent
    else none
  | .point => if isDigit c then some .fraction else none
  | .fraction =>
    if isDigit c then some .fraction else if c = 101 ∨ c = 69 then some .exponent else none
  | .exponent =>
    if c = 43 ∨ c = 45 then some .sign else if isDigit c then some .power else none
  | .sign | .power => if isDigit c then some .power else none

def NumberState.done : NumberState → Bool
  | .zero | .integer | .fraction | .power => true
  | _ => false

def numberFrom : NumberState → Text → Bool
  | s, [] => s.done
  | s, c :: rest =>
    match s.next c with
    | some s => numberFrom s rest
    | none => false

/-- A literal of the JSON grammar. -/
structure Number where
  literal : Text
  valid : numberFrom .start literal = true

def isNumberUnit (c : UInt16) : Bool :=
  isDigit c || c = 43 || c = 45 || c = 46 || c = 101 || c = 69

/-- `0`, `-0.0`, `0e1` -/
def Number.isZero (n : Number) : Bool :=
  (n.literal.takeWhile fun c => c ≠ 101 && c ≠ 69).all fun c => c = 48 || c = 45 || c = 46

/-! ### Values -/

inductive Value
  | null
  | bool (value : Bool)
  | number (value : Number)
  | string (value : Text)
  | array (items : List Value)
  | object (members : List (Text × Value))

namespace Value

theorem induction {P : Value → Prop} (null : P .null) (bool : ∀ b, P (.bool b))
    (number : ∀ n, P (.number n)) (string : ∀ s, P (.string s))
    (array : ∀ items, (∀ v ∈ items, P v) → P (.array items))
    (object : ∀ members, (∀ m ∈ members, P (Prod.snd m)) → P (.object members)) (v : Value) :
    P v := by
  refine @Value.rec P (fun items => ∀ v ∈ items, P v) (fun members => ∀ m ∈ members, P (Prod.snd m))
    (fun m => P m.2) null bool number string array object ?_ ?_ ?_ ?_ ?_ v
  · exact fun v hv => absurd hv List.not_mem_nil
  · intro v items hv hitems w hw
    rcases List.mem_cons.mp hw with rfl | hw
    · exact hv
    · exact hitems w hw
  · exact fun m hm => absurd hm List.not_mem_nil
  · intro m members hm hmembers m' hm'
    rcases List.mem_cons.mp hm' with rfl | hm'
    · exact hm
    · exact hmembers m' hm'
  · exact fun _ _ hv => hv

mutual

def print : Value → Text
  | .null => ascii "null"
  | .bool true => ascii "true"
  | .bool false => ascii "false"
  | .number n => n.literal
  | .string s => quote s
  | .array items => 91 :: (printItems items ++ [93])
  | .object members => 123 :: (printMembers members ++ [125])

def printItems : List Value → Text
  | [] => []
  | [v] => v.print
  | v :: w :: rest => v.print ++ 44 :: printItems (w :: rest)

def printMembers : List (Text × Value) → Text
  | [] => []
  | [(key, v)] => quote key ++ 58 :: v.print
  | (key, v) :: m :: rest => quote key ++ 58 :: (v.print ++ 44 :: printMembers (m :: rest))

end

def get (key : Text) : Value → Option Value
  | .object members => (members.filter fun m => m.1 = key).getLast?.map Prod.snd
  | _ => none

/-- A condition holds of the value. -/
def truthy : Value → Bool
  | .null | .bool false => false
  | .number n => !n.isZero
  | .string s => s ≠ []
  | _ => true

end Value

/-! ### Reading -/

def isSpace (c : UInt16) : Bool :=
  c = 9 || c = 10 || c = 13 || c = 32

def skip (t : Text) : Text :=
  t.dropWhile isSpace

/-- The rest behind a code unit. -/
def expect (c : UInt16) : Text → Option Text
  | [] => none
  | d :: rest => if d = c then some rest else none

/-- The rest behind a word. -/
def keyword (word t : Text) : Option Text :=
  if word <+: t then some (t.drop word.length) else none

def isHexDigit (c : UInt16) : Bool :=
  isDigit c || (97 ≤ c && c ≤ 102) || (65 ≤ c && c ≤ 70)

def hexUnitValue (c : UInt16) : ℕ :=
  if c.toNat < 58 then c.toNat - 48 else if c.toNat < 71 then c.toNat - 55 else c.toNat - 87

/-- The code unit a two-character escape stands for. -/
def escapeUnit (e : UInt16) : Option UInt16 :=
  if e = 98 then some 8
  else if e = 116 then some 9
  else if e = 110 then some 10
  else if e = 102 then some 12
  else if e = 114 then some 13
  else if e = 34 ∨ e = 92 ∨ e = 47 then some e
  else none

/-- Where a reader of a quoted string stands: in an escape, or in one of its hex digits. -/
inductive Reading
  | plain
  | escaped
  | hex (read value : ℕ)

/-- The string up to the closing quotation mark, and what follows it. -/
def readString : Reading → Text → Option (Text × Text)
  | _, [] => none
  | .plain, c :: rest =>
    if c = 34 then some ([], rest)
    else if c = 92 then readString .escaped rest
    else if c < 32 then none
    else (readString .plain rest).map (Prod.map (List.cons c) id)
  | .escaped, e :: rest =>
    if e = 117 then readString (.hex 0 0) rest
    else
      match escapeUnit e with
      | some c => (readString .plain rest).map (Prod.map (List.cons c) id)
      | none => none
  | .hex read value, h :: rest =>
    if isHexDigit h then
      if read = 3 then
        (readString .plain rest).map
          (Prod.map (List.cons (UInt16.ofNat (value * 16 + hexUnitValue h))) id)
      else readString (.hex (read + 1) (value * 16 + hexUnitValue h)) rest
    else none

def readNumber (t : Text) : Option (Value × Text) :=
  let literal := t.takeWhile isNumberUnit
  if h : numberFrom .start literal = true then
    some (.number ⟨literal, h⟩, t.dropWhile isNumberUnit)
  else none

def readWord (t : Text) : Option (Value × Text) :=
  match keyword (ascii "null") t, keyword (ascii "true") t, keyword (ascii "false") t with
  | some rest, _, _ => some (.null, rest)
  | _, some rest, _ => some (.bool true, rest)
  | _, _, some rest => some (.bool false, rest)
  | _, _, _ => readNumber t

def readScalar (t : Text) : Option (Value × Text) :=
  match expect 34 t with
  | some rest => (readString .plain rest).map (Prod.map .string id)
  | none => readWord t

mutual

def readValue : ℕ → Text → Option (Value × Text)
  | 0, _ => none
  | fuel + 1, t =>
    match expect 91 (skip t), expect 123 (skip t) with
    | some rest, _ =>
      match expect 93 (skip rest) with
      | some rest => some (.array [], rest)
      | none => (readItems fuel rest).map (Prod.map .array id)
    | none, some rest =>
      match expect 125 (skip rest) with
      | some rest => some (.object [], rest)
      | none => (readMembers fuel rest).map (Prod.map .object id)
    | none, none => readScalar (skip t)

def readItems : ℕ → Text → Option (List Value × Text)
  | 0, _ => none
  | fuel + 1, t =>
    (readValue fuel t).bind fun read =>
      match expect 44 (skip read.2) with
      | some rest => (readItems fuel rest).map (Prod.map (List.cons read.1) id)
      | none => (expect 93 (skip read.2)).map fun rest => ([read.1], rest)

def readMembers : ℕ → Text → Option (List (Text × Value) × Text)
  | 0, _ => none
  | fuel + 1, t =>
    ((expect 34 (skip t)).bind (readString .plain)).bind fun key =>
      ((expect 58 (skip key.2)).bind (readValue fuel)).bind fun read =>
        match expect 44 (skip read.2) with
        | some rest => (readMembers fuel rest).map (Prod.map (List.cons (key.1, read.1)) id)
        | none => (expect 125 (skip read.2)).map fun rest => ([(key.1, read.1)], rest)

end

/-- The value a JSON text denotes. Every second read takes a code unit, so the fuel suffices. -/
def parse (t : Text) : Option Value :=
  (readValue (2 * t.length + 2) t).bind fun read =>
    if skip read.2 = [] then some read.1 else none

end JsonText
