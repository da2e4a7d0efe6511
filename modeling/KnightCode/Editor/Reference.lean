import KnightCode.Editor.Expansion
import KnightCode.Editor.Gaps
import KnightCode.Editor.Renumbering

/-!
# The reference editor

Its text has large pastes as units with their own contents. It takes from the editor what is on
the screen: where a move leads, how far a deletion reaches, whether a kill goes on with the one
before it. What it deletes, moves, copies and restores are its own units, and no registry says
what they mean. `Meets` is what an act must find for the editor to do the same.
-/

namespace KnightCode.Editor

structure Reference where
  gap : Gap Piece
  killRing : List (List Piece)
  undoStack : List (Gap Piece)
  yankedAt : Gap Piece

/-- No text. -/
def emptyGap : Gap Piece :=
  ⟨[], [], [], []⟩

/-! ### How far deletions reach -/

/-- Back to a column of the line, or onto the line before. -/
def backRange (e : Editor) (start : ℤ) : Gap.Range :=
  if 0 < e.state.cursorCol then .back start.toNat
  else if 0 < e.state.cursorLine then .previous
  else .nothing

/-- Onward to a column of the line, or the next line up to this one's end. -/
def onwardRange (e : Editor) (stop : ℤ) : Gap.Range :=
  if e.state.cursorCol < e.state.currentLine.length then .onward (stop - e.state.cursorCol).toNat
  else if e.state.cursorLine + 1 < e.state.lines.length then .next
  else .nothing

def lastLength (segments : List SegmentData) : ℕ :=
  (segments.getLast?.map fun seg => seg.segment.length).getD 1

def firstLength (segments : List SegmentData) : ℕ :=
  (segments.head?.map fun seg => seg.segment.length).getD 1

def backspaceRange (host : Host) (e : Editor) : Gap.Range :=
  e.backRange (e.state.cursorCol - lastLength (e.segment host e.state.beforeCursor))

def forwardDeleteRange (host : Host) (e : Editor) : Gap.Range :=
  e.onwardRange (e.state.cursorCol + firstLength (e.segment host e.state.afterCursor))

def killRange (host : Host) (e : Editor) : Kill → Gap.Range
  | .toStartOfLine => e.backRange 0
  | .toEndOfLine => e.onwardRange e.state.currentLine.length
  | .wordBackwards =>
    e.backRange (findWordBackward (e.words host) e.state.currentLine e.state.cursorCol)
  | .wordForward =>
    e.onwardRange (findWordForward (e.words host) e.state.currentLine e.state.cursorCol)

/-! ### Texts that come in -/

/-- A large paste is one unit. -/
def pastedLines (e : Editor) (text : Text) : List (List Piece) :=
  let content := pastedText e.state text
  if 10 < (splitLines content).length ∨ 1000 < content.length then
    [[.paste (e.pasteCounter + 1) content]]
  else charLines (normalizeText content)

/-- The text a completion puts in for what was typed, and where in it the cursor comes to stand. -/
def completion (s : EditorState) (item : AutocompleteItem) (typed : Text) : Text × ℤ :=
  let beforePrefix := Slices.sliceTo s.currentLine (s.cursorCol - typed.length)
  if typed.head? = some 47 ∧ trim beforePrefix = [] ∧ 47 ∉ typed.tail then
    (47 :: (item.value ++ [32]), item.value.length + 2)
  else if typed.head? = some 64 then
    let suffix := if item.label.getLast? = some 47 then [] else [32]
    (item.value ++ suffix, cursorOffset item + suffix.length)
  else (item.value, cursorOffset item)

namespace Reference

def initial : Reference :=
  ⟨emptyGap, [], [], emptyGap⟩

/-! ### Steps -/

def push (ring : List (List Piece)) (removed : List Piece) (prepend accumulate : Bool) :
    List (List Piece) :=
  if removed = [] then ring
  else
    match accumulate, ring.getLast? with
    | true, some last =>
      ring.dropLast ++ [if prepend then removed ++ last else last ++ removed]
    | _, _ => ring ++ [removed]

def rotate (ring : List (List Piece)) : List (List Piece) :=
  match ring.getLast? with
  | some last => last :: ring.dropLast
  | none => ring

/-- The other pastes are shown with their new numbers. -/
def renumber (target : ℕ) (g : Gap Piece) : Gap Piece :=
  g.flat fun piece => [renumbered target piece]

/-- The last grapheme goes, or a paste. -/
def backspaced (host : Host) (e : Editor) (g : Gap Piece) : Gap Piece :=
  match g.before.getLast? with
  | some (.paste n _) => ((renumber n g).without Piece.shown (.char newline) (e.backspaceRange host)).1
  | _ => (g.without Piece.shown (.char newline) (e.backspaceRange host)).1

/-- What was typed goes, and the completion comes in for it. -/
def completed (s : EditorState) (item : AutocompleteItem) (typed : Text) (g : Gap Piece) :
    Gap Piece :=
  let kept := (Gap.cut Piece.shown (s.cursorCol - typed.length).toNat g.before).1
  let text := (completion s item typed).1
  let offset := (completion s item typed).2.toNat
  let after := if adjustedAfterCursor s item typed = s.afterCursor then g.after else g.after.tail
  ⟨g.above, kept ++ chars (text.take offset), chars (text.drop offset) ++ after, g.below⟩

/-- The cursor goes where the editor's cursor has gone. -/
def moved (s : EditorState) (g : Gap Piece) : Gap Piece :=
  Gap.seek Piece.shown g.lines s.cursorLine s.cursorCol.toNat

def popsNothing (e : Editor) (r : Reference) : Prop :=
  e.lastAction ≠ some .yank ∨ r.killRing.length ≤ 1

instance (e : Editor) (r : Reference) : Decidable (r.popsNothing e) :=
  inferInstanceAs (Decidable (_ ∨ _))

def gapAfter (host : Host) (e : Editor) (r : Reference) : Act → Gap Piece
  | .insertCharacter char => ⟨r.gap.above, r.gap.before ++ chars char, r.gap.after, r.gap.below⟩
  | .paste text => r.gap.insert (e.pastedLines text)
  | .addNewLine => r.gap.insert [[], []]
  | .backspace => backspaced host e r.gap
  | .forwardDelete => (r.gap.without Piece.shown (.char newline) (e.forwardDeleteRange host)).1
  | .kill k => (r.gap.without Piece.shown (.char newline) (e.killRange host k)).1
  | .yank =>
    match r.killRing.getLast? with
    | some entry => r.gap.insert (splitPieces entry)
    | none => r.gap
  | .yankPop =>
    if r.popsNothing e then r.gap
    else r.yankedAt.insert (splitPieces ((rotate r.killRing).getLast?.getD []))
  | .undo => r.undoStack.getLast?.getD r.gap
  | .setText text => emptyGap.insert (charLines (normalizeText text))
  | .insertTextAtCursor text => r.gap.insert (charLines (normalizeText text))
  | .applyCompletion item typed => completed e.state item typed r.gap
  | .submit => emptyGap
  | act => moved (e.step host act).state r.gap

def ringAfter (host : Host) (e : Editor) (r : Reference) : Act → List (List Piece)
  | .kill k => push r.killRing
    (r.gap.without Piece.shown (.char newline) (e.killRange host k)).2 k.backward e.wasKill
  | .yankPop => if r.popsNothing e then r.killRing else rotate r.killRing
  | _ => r.killRing

/-- A snapshot is taken where the editor takes one. -/
def undoAfter (host : Host) (e : Editor) (r : Reference) : Act → List (Gap Piece)
  | .undo => r.undoStack.dropLast
  | .submit => []
  | act =>
    if (e.step host act).undoStack.length = e.undoStack.length then r.undoStack
    else r.undoStack ++ [r.gap]

def step (host : Host) (e : Editor) (r : Reference) (act : Act) : Reference where
  gap := r.gapAfter host e act
  killRing := r.ringAfter host e act
  undoStack := r.undoAfter host e act
  yankedAt :=
    match act with
    | .yank => r.gap
    | _ => r.yankedAt

end Reference

/-! ### What the acts need -/

/-- A paste by itself, or other text that is no marker. -/
inductive IsPart : List Piece → Prop
  | paste (n : ℕ) (content : Text) : IsPart [.paste n content]
  | chars (t : Text) (hne : t ≠ []) (h : isPasteMarker t = false) : IsPart (chars t)

/-- The segments of a text are the pastes and parts of the other text. -/
def Parts (segments : List SegmentData) (pieces : List Piece) : Prop :=
  ∃ groups : List (List Piece), groups.flatten = pieces ∧ segments = placed 0 (groups.map shown) ∧
    ∀ group ∈ groups, IsPart group

/-- The registry has the pastes' contents under their numbers. -/
def Registered (pastes : List (ℕ × Text)) (pieces : List Piece) : Prop :=
  ∀ n content, .paste n content ∈ pieces → Assoc.get n pastes = some content

/-- The cursor is between two units of the text. -/
def Between (g : Gap Piece) (s : EditorState) : Prop :=
  ∃ g' : Gap Piece, g'.lines = g.lines ∧ s = gapState (g'.flat Piece.shown)

/-- The paste has no copy, no other text has a marker with a higher number, and the markers before
the cursor are no shorter with their new numbers. -/
structure RemovesAlone (e : Editor) (g : Gap Piece) (n : ℕ) : Prop where
  small : e.pasteCounter ≤ 2 ^ 53
  alone : ∀ content, .paste n content ∉ (⟨g.above, g.before.dropLast, g.after, g.below⟩ :
    Gap Piece).items
  above : ∀ line ∈ g.lines, NoneAbove n line
  columns : (shown (g.before.map (renumbered n))).length = (shown g.before).length

/-- There is a prompt of the history, or the draft, to be shown. -/
def Browses (e : Editor) (direction : ℤ) : Prop :=
  e.history ≠ [] ∧ -1 ≤ e.historyIndex - direction ∧
    e.historyIndex - direction < e.history.length

/-- The key does not browse the history. -/
def StaysOut (host : Host) (e : Editor) : Act → Prop
  | .cursorUp => ∀ visualLines, e.buildVisualLineMap host = some visualLines →
    e.findCurrentVisualLine visualLines = 0 →
      (e.isEditorEmpty ∨ -1 < e.historyIndex ∨ e.state.cursorCol = 0) → ¬e.Browses (-1)
  | .cursorDown => -1 < e.historyIndex → ¬e.Browses 1
  | .navigateHistory direction => ¬e.Browses direction
  | _ => True

/-- Every line's segments are parts, and the column moved to is not negative. -/
structure MovesVertically (host : Host) (e : Editor) (g : Gap Piece) (act : Act) : Prop where
  parts : ∀ line ∈ g.lines, Parts (e.segment host (shown line)) line
  nonneg : 0 ≤ (e.step host act).state.cursorCol

def PartsBefore (e : Editor) (g : Gap Piece) (segment : Text → List SegmentData) : Prop :=
  0 < e.state.cursorCol → Parts (segment e.state.beforeCursor) g.before

def PartsAfter (e : Editor) (g : Gap Piece) (segment : Text → List SegmentData) : Prop :=
  e.state.cursorCol < e.state.currentLine.length → Parts (segment e.state.afterCursor) g.after

namespace Reference

/-- What an act must find. -/
def Meets (host : Host) (e : Editor) (r : Reference) : Act → Prop
  | .backspace => e.PartsBefore r.gap (e.segment host) ∧
    ∀ n content, r.gap.before.getLast? = some (.paste n content) → e.RemovesAlone r.gap n
  | .forwardDelete => e.PartsAfter r.gap (e.segment host)
  | .kill .wordBackwards => e.PartsBefore r.gap (e.words host).segment
  | .kill .wordForward => e.PartsAfter r.gap (e.words host).segment
  | .yank => ∀ entry ∈ r.killRing.getLast?, Registered e.pastes entry
  | .yankPop => ¬r.popsNothing e → ∀ entry ∈ (rotate r.killRing).getLast?, Registered e.pastes entry
  | .cursorLeft => e.PartsBefore r.gap (e.segment host)
  | .cursorRight => e.PartsAfter r.gap (e.segment host)
  | .cursorWordLeft => e.PartsBefore r.gap (e.words host).segment
  | .cursorWordRight => e.PartsAfter r.gap (e.words host).segment
  | .cursorUp => e.StaysOut host .cursorUp ∧ e.MovesVertically host r.gap .cursorUp
  | .cursorDown => e.StaysOut host .cursorDown ∧ e.MovesVertically host r.gap .cursorDown
  | .pageScroll direction pageSize => e.MovesVertically host r.gap (.pageScroll direction pageSize)
  | .click line column => ∀ target ∈ e.clickTarget host line column,
    Between r.gap ⟨e.state.lines, target.1, target.2⟩
  | .jumpToChar char forward => ∀ target ∈ jumpTarget e.state char forward,
    Between r.gap ⟨e.state.lines, target.1, target.2⟩
  | .navigateHistory direction => e.StaysOut host (.navigateHistory direction)
  | .applyCompletion _ typed => ∃ kept removed, r.gap.before = kept ++ removed ∧
    (shown removed).length = typed.length
  | _ => True

/-- No marker begins in other text when its paste is expanded. -/
def Clear (e : Editor) (r : Reference) : Prop :=
  ApartInTurn ([.char newline].intercalate r.gap.lines) [] e.pastes

instance (e : Editor) (r : Reference) : Decidable (r.Clear e) :=
  inferInstanceAs (Decidable (ApartInTurn _ _ _))

/-- Every act finds what it needs, and so does the expansion of every text on the way. -/
def MeetsAll (host : Host) (e : Editor) (r : Reference) : List Act → Prop
  | [] => r.Clear e
  | act :: acts => r.Clear e ∧ r.Meets host e act ∧
    MeetsAll host (e.step host act) (r.step host e act) acts

def run (host : Host) (e : Editor) (r : Reference) : List Act → Reference
  | [] => r
  | act :: acts => run host (e.step host act) (r.step host e act) acts

end Reference

end KnightCode.Editor
