import KnightCode.Editor.Gaps
import KnightCode.Editor.Snapshots

/-!
# Runs of kills and the yank behind them

The first kill of a run that takes anything begins an entry, and the others extend it, so that the
yank brings back what lay between where the run began and where it ended. A word kill that takes
nothing counts as a kill all the same: the kills behind it extend an older entry, which then comes
back with them.
-/

/-! ### Yanks and yank-pops -/

namespace KnightCode.Editor

variable {e : Editor} {g : Gap UInt16} {text : Text}

/-- The newest entry was put in at the gap, by the last action. -/
structure Yanked (e : Editor) (g : Gap UInt16) (text : Text) : Prop where
  action : e.lastAction = some .yank
  peek : e.killRing.peek = some text
  state : e.state = gapState (g.insert (splitLines text))

theorem insertYankedText_killRing (text : Text) (e : Editor) :
    (e.insertYankedText text).killRing = e.killRing :=
  congrArg Beside.killRing (insertYankedText_beside text)

theorem deleteYankedText_killRing (e : Editor) : e.deleteYankedText.killRing = e.killRing :=
  congrArg Beside.killRing deleteYankedText_beside

theorem yank_yanked (h : e.state = gapState g) (hpeek : e.killRing.peek = some text) :
    Yanked e.yank g text ∧ e.yank.killRing = e.killRing := by
  have hyank : e.yank = (e.pushUndoSnapshot.insertYankedText text).acted (some .yank) := by
    rw [yank, hpeek]
  have hring : e.yank.killRing = e.killRing := by
    rw [hyank]
    exact insertYankedText_killRing text e.pushUndoSnapshot
  refine ⟨⟨?_, ?_, ?_⟩, hring⟩
  · rw [hyank]
    rfl
  · rw [hring]
    exact hpeek
  · rw [hyank]
    exact @insertYankedText_gap e.pushUndoSnapshot g h text

theorem KillRing.rotate_of_length_le {ring : KillRing} (h : ring.length ≤ 1) :
    ring.rotate = ring := by
  cases ring with
  | nil => rfl
  | cons text ring =>
    rw [List.length_cons] at h
    rw [List.length_eq_zero_iff.mp (by omega : ring.length = 0)]
    rfl

theorem KillRing.peek_rotate {ring : KillRing} (h : ring.peek = some text) :
    ∃ next, ring.rotate.peek = some next := by
  have hne : ring.rotate ≠ [] := by
    rw [rotate, show ring.getLast? = some text from h]
    exact List.cons_ne_nil _ _
  exact ⟨_, List.getLast?_eq_some_getLast hne⟩

theorem yankPop_yanked (h : Yanked e g text) :
    ∃ next, Yanked e.yankPop g next ∧ e.yankPop.killRing = e.killRing.rotate := by
  by_cases hone : e.killRing.length ≤ 1
  · have hpop : e.yankPop = e := by
      rw [yankPop]
      exact if_pos (.inr hone)
    rw [hpop, KillRing.rotate_of_length_le hone]
    exact ⟨text, h, rfl⟩
  · obtain ⟨next, hnext⟩ := KillRing.peek_rotate h.peek
    have hdeleted : e.pushUndoSnapshot.deleteYankedText.state = gapState g :=
      @deleteYankedText_gap e.pushUndoSnapshot g text h.peek h.state
    have hring : e.pushUndoSnapshot.deleteYankedText.killRing = e.killRing :=
      deleteYankedText_killRing e.pushUndoSnapshot
    have hpop : e.yankPop = (insertYankedText next { e.pushUndoSnapshot.deleteYankedText with
        killRing := e.killRing.rotate }).acted (some .yank) := by
      have hnot : ¬(e.lastAction ≠ some .yank ∨ e.killRing.length ≤ 1) := by
        rw [not_or, not_not]
        exact ⟨h.action, hone⟩
      rw [yankPop, if_neg hnot]
      dsimp only
      rw [hring, hnext, Option.getD_some]
    have hrotated : e.yankPop.killRing = e.killRing.rotate := by
      rw [hpop]
      exact insertYankedText_killRing next _
    refine ⟨next, ⟨?_, ?_, ?_⟩, hrotated⟩
    · rw [hpop]
      rfl
    · rw [hrotated]
      exact hnext
    · rw [hpop]
      apply @insertYankedText_gap _ g
      exact hdeleted

theorem yankPops_yanked (h : Yanked e g text) (k : ℕ) :
    ∃ entry, Yanked (yankPop^[k] e) g entry ∧
      (yankPop^[k] e).killRing = KillRing.rotate^[k] e.killRing := by
  induction k generalizing e text with
  | zero => exact ⟨text, h, rfl⟩
  | succ k ih =>
    obtain ⟨next, hnext, hring⟩ := yankPop_yanked h
    rw [Function.iterate_succ_apply, Function.iterate_succ_apply, ← hring]
    exact ih hnext

theorem yankPops_insert (h : e.state = gapState g) (hring : e.killRing ≠ []) (k : ℕ) :
    ∃ entry, (KillRing.rotate^[k] e.killRing).peek = some entry ∧
      (yankPop^[k] e.yank).state = (e.insertYankedText entry).state ∧
      (yankPop^[k] e.yank).killRing = KillRing.rotate^[k] e.killRing := by
  obtain ⟨hyanked, hsame⟩ := yank_yanked h (List.getLast?_eq_some_getLast hring)
  obtain ⟨entry, hpopped, hrotated⟩ := yankPops_yanked hyanked k
  rw [hsame] at hrotated
  refine ⟨entry, ?_, ?_, hrotated⟩
  · rw [← hrotated]
    exact hpopped.peek
  · rw [hpopped.state, insertYankedText_gap h]

end KnightCode.Editor

/-! ### Runs of kills -/

namespace KnightCode.Editor

open List

variable {host : Host} {e : Editor} {g : Gap UInt16}
variable {ring : KillRing} {last : Text} {kills : List Kill}

def EditorState.textAfter (s : EditorState) : Text :=
  joinLines (s.afterCursor :: s.lines.drop (s.cursorLine + 1))

theorem gapState_textAfter : (gapState g).textAfter = g.onward newline := by
  rw [EditorState.textAfter, gapState_afterCursor, joinLines, Gap.intercalate_cons]
  simp [Gap.lines, Gap.onward]

def killAll (host : Host) (e : Editor) (kills : List Kill) : Editor :=
  e.run host (kills.map .kill)

/-- The first kill with anything in reach is not stopped at once. -/
def FirstKillTakes (host : Host) (e : Editor) : List Kill → Prop
  | [] => False
  | k :: kills => if e.InReach k then ¬e.StopsAtOnce host k else FirstKillTakes host e kills

instance (host : Host) (e : Editor) (kills : List Kill) :
    Decidable (FirstKillTakes host e kills) := by
  induction kills with
  | nil => exact inferInstanceAs (Decidable False)
  | cons k kills ih =>
    unfold FirstKillTakes
    infer_instance

/-- After the yank the text is as it was before the kills, and the cursor is behind what has come
back. -/
def Restores (host : Host) (e : Editor) (kills : List Kill) : Prop :=
  (killAll host e kills).yank.state.getText = e.state.getText ∧
    (killAll host e kills).yank.state.textAfter = (killAll host e kills).state.textAfter

theorem KillsAt.onto {e' : Editor} {k : Kill} {g' : Gap UInt16} {x y : Text}
    (hkills : KillsAt e e' k g g' x y) (haction : e.lastAction = some .kill)
    (hring : e.killRing = ring ++ [last]) : e'.killRing = ring ++ [x ++ last ++ y] := by
  have hwas : e.wasKill = true := by rw [wasKill, haction]; rfl
  rw [hkills.ring, hring, hwas, KillRing.push_onto]
  cases hk : k.backward with
  | true => simp [hkills.backward hk]
  | false => simp [hkills.forward hk]

theorem killAll_cons (k : Kill) (kills : List Kill) :
    killAll host e (k :: kills) = killAll host (e.kill host k) kills := rfl

theorem firstKillTakes_exit (kills : List Kill) :
    FirstKillTakes host e.exitHistoryBrowsing kills ↔ FirstKillTakes host e kills := by
  induction kills with
  | nil => exact Iff.rfl
  | cons k kills ih =>
    rw [FirstKillTakes, FirstKillTakes]
    by_cases h : e.InReach k
    · rw [if_pos h, if_pos (show e.exitHistoryBrowsing.InReach k from h)]
      exact Iff.rfl
    · rw [if_neg h, if_neg (show ¬e.exitHistoryBrowsing.InReach k from h)]
      exact ih

/-! ### The run -/

variable (hhost : host.Lawful)
include hhost

theorem killAll_onto (h : e.state = gapState g) (haction : e.lastAction = some .kill)
    (hring : e.killRing = ring ++ [last]) (kills : List Kill) :
    ∃ g' x y, (killAll host e kills).state = gapState g' ∧ Gap.Taken newline g g' x y ∧
      (killAll host e kills).killRing = ring ++ [x ++ last ++ y] := by
  induction kills generalizing e g last with
  | nil => exact ⟨g, [], [], h, .refl _ _, by simpa [killAll, run] using hring⟩
  | cons k kills ih =>
    rw [killAll_cons]
    by_cases hreach : e.InReach k
    · obtain ⟨g₁, x, y, -, hkills⟩ := kill_kills hhost h hreach
      obtain ⟨g', x', y', hstate, htaken, hlast⟩ :=
        ih hkills.state hkills.action (hkills.onto haction hring)
      refine ⟨g', x' ++ x, y ++ y', hstate, hkills.taken.trans htaken, ?_⟩
      rw [hlast]
      simp only [append_assoc]
    · rw [kill_of_not_inReach host h hreach]
      exact ih (e := e.exitHistoryBrowsing) h haction hring

theorem killAll_first (h : e.state = gapState g) (haction : e.lastAction ≠ some .kill)
    (hring : e.killRing = ring ++ [last]) (kills : List Kill) :
    ∃ g' x y, (killAll host e kills).state = gapState g' ∧ Gap.Taken newline g g' x y ∧
      (killAll host e kills).killRing =
        ring ++ if FirstKillTakes host e kills then [last, x ++ y] else [x ++ last ++ y] := by
  induction kills generalizing e g with
  | nil => exact ⟨g, [], [], h, .refl _ _, by simpa [killAll, run, FirstKillTakes] using hring⟩
  | cons k kills ih =>
    rw [killAll_cons]
    by_cases hreach : e.InReach k
    · obtain ⟨g₁, x, y, hstops, hkills⟩ := kill_kills hhost h hreach
      have hwas : e.wasKill = false := by
        rw [wasKill, beq_eq_false_iff_ne]
        exact haction
      have hpush := hkills.ring
      rw [hwas, KillRing.push_fresh, hring] at hpush
      simp only [FirstKillTakes, if_pos hreach, ← hstops, ite_not]
      split_ifs at hpush ⊢ with hnil
      · obtain ⟨g', x', y', hstate, htaken, hlast⟩ :=
          killAll_onto hhost hkills.state hkills.action hpush kills
        rw [append_eq_nil_iff] at hnil
        refine ⟨g', x' ++ x, y ++ y', hstate, hkills.taken.trans htaken, ?_⟩
        rw [hlast, hnil.1, hnil.2, append_nil, nil_append]
      · obtain ⟨g', x', y', hstate, htaken, hlast⟩ :=
          killAll_onto hhost hkills.state hkills.action hpush kills
        refine ⟨g', x' ++ x, y ++ y', hstate, hkills.taken.trans htaken, ?_⟩
        rw [hlast]
        simp only [append_assoc, cons_append, nil_append]
    · rw [kill_of_not_inReach host h hreach]
      simpa only [FirstKillTakes, if_neg hreach, firstKillTakes_exit] using
        ih (e := e.exitHistoryBrowsing) h haction hring

theorem killAll_empty (h : e.state = gapState g) (hring : e.killRing = []) (kills : List Kill) :
    ∃ g' x y, (killAll host e kills).state = gapState g' ∧ Gap.Taken newline g g' x y ∧
      (killAll host e kills).killRing = if x ++ y = [] then [] else [x ++ y] := by
  induction kills generalizing e g with
  | nil => exact ⟨g, [], [], h, .refl _ _, hring⟩
  | cons k kills ih =>
    rw [killAll_cons]
    by_cases hreach : e.InReach k
    · obtain ⟨g₁, x, y, -, hkills⟩ := kill_kills hhost h hreach
      have hpush := hkills.ring
      rw [hring, KillRing.push_empty] at hpush
      split_ifs at hpush with hnil
      · obtain ⟨g', x', y', hstate, htaken, hlast⟩ := ih hkills.state hpush
        rw [append_eq_nil_iff] at hnil
        refine ⟨g', x' ++ x, y ++ y', hstate, hkills.taken.trans htaken, ?_⟩
        rw [hlast, hnil.1, hnil.2, append_nil, nil_append]
      · have hpush' : (e.kill host k).killRing = [] ++ [x ++ y] := hpush
        obtain ⟨g', x', y', hstate, htaken, hlast⟩ :=
          killAll_onto hhost hkills.state hkills.action hpush' kills
        refine ⟨g', x' ++ x, y ++ y', hstate, hkills.taken.trans htaken, ?_⟩
        rw [hlast, if_neg, nil_append]
        · simp only [append_assoc]
        · intro hall
          simp only [append_eq_nil_iff] at hall hnil
          exact hnil ⟨hall.1.2, hall.2.1⟩
    · rw [kill_of_not_inReach host h hreach]
      exact ih (e := e.exitHistoryBrowsing) h hring

/-! ### The yank -/

theorem killAll_restores_iff (h : e.state = gapState g) (hentries : [] ∉ e.killRing)
    (haction : e.lastAction ≠ some .kill) :
    Restores host e kills ↔ e.killRing = [] ∨ FirstKillTakes host e kills := by
  have hyank : ∀ g' x y, (killAll host e kills).state = gapState g' →
      Gap.Taken newline g g' x y → (killAll host e kills).killRing.peek = some (x ++ y) →
      Restores host e kills := by
    intro g' x y hstate htaken hpeek
    have hrestored := htaken.restored
    rw [Restores, (yank_yanked hstate hpeek).1.state, hstate, h, gapState_textAfter, gapState_textAfter]
    exact ⟨hrestored, Gap.insert_onward newline g' _⟩
  rcases eq_nil_or_concat' e.killRing with hring | ⟨ring, last, hring⟩
  · refine iff_of_true ?_ (.inl hring)
    obtain ⟨g', x, y, hstate, htaken, hlast⟩ := killAll_empty hhost h hring kills
    split_ifs at hlast with hnil
    · rw [append_eq_nil_iff] at hnil
      have hsame : (killAll host e kills).yank = killAll host e kills := by
        rw [yank, hlast]
        rfl
      rw [Restores, hsame, hstate, h, gapState_getText, gapState_getText, htaken.upTo,
        htaken.onward, hnil.1, hnil.2, append_nil, nil_append]
      exact ⟨rfl, rfl⟩
    · exact hyank g' x y hstate htaken (by rw [hlast]; rfl)
  obtain ⟨g', x, y, hstate, htaken, hlast⟩ := killAll_first hhost h haction hring kills
  rw [or_iff_right (by simp [hring])]
  split_ifs at hlast with htakes
  · refine iff_of_true (hyank g' x y hstate htaken ?_) htakes
    rw [hlast, KillRing.peek, getLast?_append_of_ne_nil _ (cons_ne_nil _ _)]
    rfl
  refine iff_of_false ?_ htakes
  rintro ⟨htext, -⟩
  have hpos : 0 < last.length := by
    rw [length_pos_iff]
    rintro rfl
    simp [hring] at hentries
  have hpeek : (killAll host e kills).killRing.peek = some (x ++ last ++ y) := by
    rw [hlast, KillRing.peek, getLast?_concat]
  rw [(yank_yanked hstate hpeek).1.state, h] at htext
  have hlength := congrArg length htext
  have hinsert := Gap.insert_text newline g' (x ++ last ++ y)
  have hbefore := htaken.length
  simp only [EditorState.getText, joinLines, gapState_lines, splitLines] at hlength
  rw [hinsert, length_append, length_append] at hlength
  omega

end KnightCode.Editor
