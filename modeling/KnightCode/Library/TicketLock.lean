import Mathlib.Tactic

/-!
# Locks by tickets

For every key a lock keeps the ticket taken last and not yet released. A new ticket waits for that
one, which in turn waited for the one before: who has started comes after released tickets only.
Tickets are numbered in the order in which they are taken.
-/

inductive Stage
  | waiting
  | started
  | released
deriving DecidableEq

structure Ticket (κ : Type*) where
  key : κ
  previous : Option ℕ
  stage : Stage

structure TicketLock (κ : Type*) where
  ticket : ℕ → Option (Ticket κ)
  last : κ → Option ℕ

namespace TicketLock

variable {κ : Type*}

/-- Everything up to a ticket is released. -/
inductive Resolved (l : TicketLock κ) : Option ℕ → Prop
  | none : Resolved l none
  | some {i : ℕ} {t : Ticket κ} (ht : l.ticket i = some t) (hstage : t.stage = .released)
      (hprevious : Resolved l t.previous) : Resolved l (some i)

def Released (l : TicketLock κ) (key : κ) (bound : ℕ) : Prop :=
  ∀ i t, i < bound → l.ticket i = some t → t.key = key → t.stage = .released

structure Valid (l : TicketLock κ) : Prop where
  last_some : ∀ key i, l.last key = some i → ∃ t, l.ticket i = some t ∧ t.key = key ∧
    t.stage ≠ .released ∧ ∀ j t', l.ticket j = some t' → t'.key = key → j ≤ i
  last_none : ∀ key, l.last key = none → ∀ i, l.Released key i
  previous_some : ∀ i t m, l.ticket i = some t → t.previous = some m →
    m < i ∧ (∃ t', l.ticket m = some t' ∧ t'.key = t.key) ∧
      ∀ j t', j < i → l.ticket j = some t' → t'.key = t.key → j ≤ m
  previous_none : ∀ i t, l.ticket i = some t → t.previous = none → l.Released t.key i
  begun : ∀ i t, l.ticket i = some t → t.stage ≠ .waiting → l.Released t.key i

variable {l : TicketLock κ} {i j : ℕ} {t t' : Ticket κ} {key : κ}

theorem Resolved.released {queue : Option ℕ} (h : l.Resolved queue) :
    ∀ m, queue = Option.some m → ∃ t, l.ticket m = Option.some t ∧ t.stage = .released := by
  intro m hm
  cases h with
  | none => cases hm
  | some ht hstage _ =>
    obtain rfl := Option.some.inj hm
    exact ⟨_, ht, hstage⟩

theorem Valid.released_before (hl : l.Valid) (ht : l.ticket i = some t)
    (hresolved : l.Resolved t.previous) : l.Released t.key i := by
  cases hprevious : t.previous with
  | none => exact hl.previous_none i t ht hprevious
  | some m =>
    obtain ⟨hlt, ⟨t', ht', hkey⟩, hmax⟩ := hl.previous_some i t m ht hprevious
    obtain ⟨tm, htm, hreleased⟩ := hresolved.released m hprevious
    obtain rfl : tm = t' := Option.some.inj (htm.symm.trans ht')
    have hbegun := hl.begun m tm ht' (by rw [hreleased]; decide)
    intro j tj hj htj hkeyj
    rcases Nat.lt_or_eq_of_le (hmax j tj hj htj hkeyj) with hjm | rfl
    · exact hbegun j tj hjm htj (hkeyj.trans hkey.symm)
    · obtain rfl : tj = tm := Option.some.inj (htj.symm.trans ht')
      exact hreleased

theorem Valid.resolved (hl : l.Valid) (ht : l.ticket i = some t) (hreleased : l.Released t.key i) :
    l.Resolved t.previous := by
  induction i using Nat.strong_induction_on generalizing t with
  | _ i ih =>
    cases hprevious : t.previous with
    | none => exact .none
    | some m =>
      obtain ⟨hlt, ⟨t', ht', hkey⟩, -⟩ := hl.previous_some i t m ht hprevious
      refine .some ht' (hreleased m t' hlt ht' hkey) (ih m hlt ht' ?_)
      rw [hkey]
      exact fun j tj hj => hreleased j tj (hj.trans hlt)

/-! ### A ticket goes on -/

def setStage (l : TicketLock κ) (i : ℕ) (t : Ticket κ) (stage : Stage) : ℕ → Option (Ticket κ) :=
  Function.update l.ticket i (some { t with stage := stage })

def start (l : TicketLock κ) (i : ℕ) (t : Ticket κ) : TicketLock κ :=
  { l with ticket := l.setStage i t .started }

theorem setStage_some {stage : Stage} (ht : l.ticket i = some t)
    (h : l.setStage i t stage j = some t') : ∃ t₀, l.ticket j = some t₀ ∧ t'.key = t₀.key ∧
      t'.previous = t₀.previous ∧ (j = i ∧ t'.stage = stage ∨ j ≠ i ∧ t'.stage = t₀.stage) := by
  rw [setStage, Function.update_apply] at h
  split_ifs at h with hj
  · subst hj
    obtain rfl := Option.some.inj h
    exact ⟨t, ht, rfl, rfl, .inl ⟨rfl, rfl⟩⟩
  · exact ⟨t', h, rfl, rfl, .inr ⟨hj, rfl⟩⟩

theorem setStage_exists (stage : Stage) (ht : l.ticket i = some t) (h : l.ticket j = some t') :
    ∃ t'', l.setStage i t stage j = some t'' ∧ t''.key = t'.key ∧
      (j = i ∧ t''.stage = stage ∨ j ≠ i ∧ t''.stage = t'.stage) := by
  rw [setStage, Function.update_apply]
  split_ifs with hj
  · subst hj
    obtain rfl := Option.some.inj (h.symm.trans ht)
    exact ⟨_, rfl, rfl, .inl ⟨rfl, rfl⟩⟩
  · exact ⟨t', h, rfl, .inr ⟨hj, rfl⟩⟩

theorem Valid.previous_setStage (hl : l.Valid) (stage : Stage) (ht : l.ticket i = some t) {m : ℕ}
    (ht' : l.setStage i t stage j = some t') (hprevious : t'.previous = some m) :
    m < j ∧ (∃ t'', l.setStage i t stage m = some t'' ∧ t''.key = t'.key) ∧
      ∀ k tk, k < j → l.setStage i t stage k = some tk → tk.key = t'.key → k ≤ m := by
  obtain ⟨t₀, ht₀, hkey₀, hprevious₀, -⟩ := setStage_some ht ht'
  obtain ⟨hlt, ⟨tm, htm, hkeym⟩, hmax⟩ :=
    hl.previous_some j t₀ m ht₀ (hprevious₀.symm.trans hprevious)
  obtain ⟨t'', ht'', hkey', -⟩ := setStage_exists stage ht htm
  refine ⟨hlt, ⟨t'', ht'', by rw [hkey', hkeym, hkey₀]⟩, fun k tk hk htk hkeyk => ?_⟩
  obtain ⟨t₁, ht₁, hkey₁, -, -⟩ := setStage_some ht htk
  exact hmax k t₁ hk ht₁ (by rw [← hkey₁, hkeyk, hkey₀])

theorem Released.start {bound : ℕ} (hwaiting : t.stage = .waiting) (ht : l.ticket i = some t)
    (h : l.Released key bound) : (l.start i t).Released key bound := by
  intro j t' hj ht' hkey
  obtain ⟨t₀, ht₀, hkey₀, -, ⟨rfl, -⟩ | ⟨-, hstage⟩⟩ := setStage_some ht ht'
  · obtain rfl := Option.some.inj (ht₀.symm.trans ht)
    have hreleased := h j t₀ hj ht₀ (hkey₀.symm.trans hkey)
    rw [hwaiting] at hreleased
    cases hreleased
  · exact hstage.trans (h j t₀ hj ht₀ (hkey₀.symm.trans hkey))

theorem Valid.start (hl : l.Valid) (ht : l.ticket i = some t) (hwaiting : t.stage = .waiting)
    (hresolved : l.Resolved t.previous) : (l.start i t).Valid where
  last_some := by
    intro key m hlast
    obtain ⟨tm, htm, hkey, hstage, hmax⟩ := hl.last_some key m hlast
    obtain ⟨t', ht', hkey', hcases⟩ := setStage_exists .started ht htm
    refine ⟨t', ht', hkey'.trans hkey, ?_, fun j tj htj hkeyj => ?_⟩
    · rcases hcases with ⟨-, hstarted⟩ | ⟨-, hsame⟩
      · rw [hstarted]
        decide
      · rw [hsame]
        exact hstage
    · obtain ⟨t₀, ht₀, hkey₀, -, -⟩ := setStage_some ht htj
      exact hmax j t₀ ht₀ (hkey₀.symm.trans hkeyj)
  last_none := fun key hnone bound => (hl.last_none key hnone bound).start hwaiting ht
  previous_some _ _ _ := hl.previous_setStage .started ht
  previous_none := by
    intro j tj htj hprevious
    obtain ⟨t₀, ht₀, hkey₀, hprevious₀, -⟩ := setStage_some ht htj
    rw [hkey₀]
    exact (hl.previous_none j t₀ ht₀ (hprevious₀.symm.trans hprevious)).start hwaiting ht
  begun := by
    intro j tj htj hstage
    obtain ⟨t₀, ht₀, hkey₀, -, ⟨rfl, -⟩ | ⟨-, hsame⟩⟩ := setStage_some ht htj
    · obtain rfl := Option.some.inj (ht₀.symm.trans ht)
      rw [hkey₀]
      exact (hl.released_before ht hresolved).start hwaiting ht
    · rw [hkey₀]
      exact (hl.begun j t₀ ht₀ (hsame ▸ hstage)).start hwaiting ht

section

variable [DecidableEq κ]

def take (l : TicketLock κ) (i : ℕ) (key : κ) : TicketLock κ where
  ticket := Function.update l.ticket i (some ⟨key, l.last key, .waiting⟩)
  last := Function.update l.last key (some i)

/-- A released ticket is forgotten, unless another one was taken since. -/
def release (l : TicketLock κ) (i : ℕ) (t : Ticket κ) : TicketLock κ where
  ticket := l.setStage i t .released
  last := if l.last t.key = some i then Function.update l.last t.key none else l.last

theorem Released.release {bound : ℕ} (ht : l.ticket i = some t) (h : l.Released key bound) :
    (l.release i t).Released key bound := by
  intro j t' hj ht' hkey
  obtain ⟨t₀, ht₀, hkey₀, -, ⟨-, hstage⟩ | ⟨-, hstage⟩⟩ := setStage_some ht ht'
  · exact hstage
  · exact hstage.trans (h j t₀ hj ht₀ (hkey₀.symm.trans hkey))

theorem Valid.release_last (hl : l.Valid) (ht : l.ticket i = some t) (hstarted : t.stage = .started)
    (hlast : l.last t.key = some i) (bound : ℕ) : (l.release i t).Released t.key bound := by
  obtain ⟨-, -, -, -, hmax⟩ := hl.last_some t.key i hlast
  have hbegun := hl.begun i t ht (by rw [hstarted]; decide)
  intro j t' hj ht' hkey
  obtain ⟨t₀, ht₀, hkey₀, -, ⟨-, hstage⟩ | ⟨hne, hstage⟩⟩ := setStage_some ht ht'
  · exact hstage
  · have hle := hmax j t₀ ht₀ (hkey₀.symm.trans hkey)
    exact hstage.trans (hbegun j t₀ (lt_of_le_of_ne hle hne) ht₀ (hkey₀.symm.trans hkey))

theorem release_last_some {m : ℕ} (hlast : (l.release i t).last key = some m) :
    l.last key = some m ∧ (l.last t.key = some i → key ≠ t.key) := by
  rw [release] at hlast
  dsimp only at hlast
  split_ifs at hlast with hi
  · rw [Function.update_apply] at hlast
    split_ifs at hlast with hkey
    exact ⟨hlast, fun _ => hkey⟩
  · exact ⟨hlast, fun h => absurd h hi⟩

theorem release_last_none (hlast : (l.release i t).last key = none) :
    l.last key = none ∨ key = t.key ∧ l.last t.key = some i := by
  rw [release] at hlast
  dsimp only at hlast
  split_ifs at hlast with hi
  · rw [Function.update_apply] at hlast
    split_ifs at hlast with hkey
    · exact .inr ⟨hkey, hi⟩
    · exact .inl hlast
  · exact .inl hlast

theorem Valid.release (hl : l.Valid) (ht : l.ticket i = some t) (hstarted : t.stage = .started) :
    (l.release i t).Valid where
  last_some := by
    intro key m hrest
    obtain ⟨hlast, hother⟩ := release_last_some hrest
    obtain ⟨tm, htm, hkey, hstage, hmax⟩ := hl.last_some key m hlast
    have hne : m ≠ i := by
      rintro rfl
      obtain rfl := Option.some.inj (htm.symm.trans ht)
      exact hother (hkey ▸ hlast) hkey.symm
    obtain ⟨t', ht', hkey', ⟨heq, -⟩ | ⟨-, hsame⟩⟩ := setStage_exists .released ht htm
    · exact absurd heq hne
    · refine ⟨t', ht', hkey'.trans hkey, hsame ▸ hstage, fun j tj htj hkeyj => ?_⟩
      obtain ⟨t₀, ht₀, hkey₀, -, -⟩ := setStage_some ht htj
      exact hmax j t₀ ht₀ (hkey₀.symm.trans hkeyj)
  last_none := by
    intro key hnone bound
    rcases release_last_none hnone with hnone | ⟨rfl, hlast⟩
    · exact (hl.last_none key hnone bound).release ht
    · exact hl.release_last ht hstarted hlast bound
  previous_some _ _ _ := hl.previous_setStage .released ht
  previous_none := by
    intro j tj htj hprevious
    obtain ⟨t₀, ht₀, hkey₀, hprevious₀, -⟩ := setStage_some ht htj
    rw [hkey₀]
    exact (hl.previous_none j t₀ ht₀ (hprevious₀.symm.trans hprevious)).release ht
  begun := by
    intro j tj htj hstage
    obtain ⟨t₀, ht₀, hkey₀, -, ⟨rfl, -⟩ | ⟨-, hsame⟩⟩ := setStage_some ht htj
    · obtain rfl := Option.some.inj (ht₀.symm.trans ht)
      rw [hkey₀]
      exact (hl.begun j t₀ ht₀ (by rw [hstarted]; decide)).release ht
    · rw [hkey₀]
      exact (hl.begun j t₀ ht₀ (hsame ▸ hstage)).release ht

theorem take_some (h : (l.take i key).ticket j = some t') :
    j = i ∧ t' = ⟨key, l.last key, .waiting⟩ ∨ j ≠ i ∧ l.ticket j = some t' := by
  rw [take] at h
  dsimp only at h
  rw [Function.update_apply] at h
  split_ifs at h with hj
  · exact .inl ⟨hj, (Option.some.inj h).symm⟩
  · exact .inr ⟨hj, h⟩

theorem take_of_lt (hj : j ≠ i) : (l.take i key).ticket j = l.ticket j :=
  Function.update_of_ne hj _ _

theorem Released.take {bound : ℕ} {key' : κ} (hle : bound ≤ i) (h : l.Released key' bound) :
    (l.take i key).Released key' bound := by
  intro j t' hj ht' hkey
  rcases take_some ht' with ⟨rfl, -⟩ | ⟨-, ht'⟩
  · omega
  · exact h j t' hj ht' hkey

theorem Valid.take (hl : l.Valid) (key : κ) (hlater : ∀ j t', l.ticket j = some t' → j < i) :
    (l.take i key).Valid where
  last_some := by
    intro key' m hlast
    rw [TicketLock.take] at hlast
    dsimp only at hlast
    rw [Function.update_apply] at hlast
    split_ifs at hlast with hkey
    · obtain rfl := Option.some.inj hlast
      refine ⟨_, Function.update_self _ _ _, hkey.symm, Stage.noConfusion, fun j tj htj _ => ?_⟩
      rcases take_some htj with ⟨rfl, -⟩ | ⟨-, htj⟩
      · exact le_rfl
      · exact (hlater j tj htj).le
    · obtain ⟨tm, htm, hkeym, hstage, hmax⟩ := hl.last_some key' m hlast
      refine ⟨tm, ?_, hkeym, hstage, fun j tj htj hkeyj => ?_⟩
      · rw [take_of_lt (hlater m tm htm).ne]
        exact htm
      · rcases take_some htj with ⟨-, rfl⟩ | ⟨-, htj⟩
        · exact absurd hkeyj.symm hkey
        · exact hmax j tj htj hkeyj
  last_none := by
    intro key' hnone bound j tj hj htj hkeyj
    rw [TicketLock.take] at hnone
    dsimp only at hnone
    rw [Function.update_apply] at hnone
    split_ifs at hnone with hkey
    rcases take_some htj with ⟨-, rfl⟩ | ⟨-, htj⟩
    · exact absurd hkeyj.symm hkey
    · exact hl.last_none key' hnone bound j tj hj htj hkeyj
  previous_some := by
    intro j tj m htj hprevious
    rcases take_some htj with ⟨rfl, rfl⟩ | ⟨-, htj⟩
    · obtain ⟨tm, htm, hkeym, -, hmax⟩ := hl.last_some key m hprevious
      have hm := hlater m tm htm
      refine ⟨hm, ⟨tm, ?_, hkeym⟩, fun k tk hk htk hkeyk => ?_⟩
      · rw [take_of_lt hm.ne]
        exact htm
      · rcases take_some htk with ⟨rfl, -⟩ | ⟨-, htk⟩
        · omega
        · exact hmax k tk htk hkeyk
    · obtain ⟨hlt, ⟨tm, htm, hkeym⟩, hmax⟩ := hl.previous_some j tj m htj hprevious
      have hj := hlater j tj htj
      refine ⟨hlt, ⟨tm, ?_, hkeym⟩, fun k tk hk htk hkeyk => ?_⟩
      · rw [take_of_lt (hlater m tm htm).ne]
        exact htm
      · rcases take_some htk with ⟨rfl, -⟩ | ⟨-, htk⟩
        · omega
        · exact hmax k tk hk htk hkeyk
  previous_none := by
    intro j tj htj hprevious
    rcases take_some htj with ⟨rfl, rfl⟩ | ⟨-, htj⟩
    · exact (hl.last_none key hprevious j).take le_rfl
    · exact (hl.previous_none j tj htj hprevious).take (hlater j tj htj).le
  begun := by
    intro j tj htj hstage
    rcases take_some htj with ⟨rfl, rfl⟩ | ⟨-, htj⟩
    · exact absurd rfl hstage
    · exact (hl.begun j tj htj hstage).take (hlater j tj htj).le

end

end TicketLock
