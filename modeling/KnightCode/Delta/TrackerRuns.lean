import KnightCode.Delta.Tracker

/-!
# Adoption

A context is opened, then prepared, then settled, and never goes back. An adoption makes every open
context of its tracker stale, since all of them are registered; so what is adopted was prepared
from the value it replaces, and no handle from before can reach a later preparation.
-/

namespace KnightCode.Delta

open List Option

variable {Value Overlay Write : Type}

/-! ### What an action can do to a context -/

/-- How far a context is on its way. -/
def Status.rank : Status → ℕ
  | .opened => 0
  | .prepared => 1
  | _ => 2

variable {status : Status}

@[simp] theorem Status.rank_eq_zero : status.rank = 0 ↔ status = .opened := by
  cases status <;> simp [rank]

/-- A later state of a context. -/
structure OverlayContext.Le (context next : OverlayContext Value Overlay) : Prop where
  owner : next.owner = context.owner
  baseRevision : next.baseRevision = context.baseRevision
  rank : context.status.rank ≤ next.status.rank

theorem OverlayContext.Le.refl (context : OverlayContext Value Overlay) : context.Le context :=
  ⟨rfl, rfl, le_refl _⟩

namespace Tracking
variable {id : ℕ} {w w' : Tracking Value Overlay}

/-- The context is no longer open. -/
def Closed (id : ℕ) (w : Tracking Value Overlay) : Prop :=
  ∃ context, w.contexts[id]? = some context ∧ 0 < context.status.rank

/-- A later state of everything handed out, no preparation changed. -/
structure Evolves (w w' : Tracking Value Overlay) : Prop where
  contexts : ∀ (id : ℕ) (context : OverlayContext Value Overlay), w.contexts[id]? = some context →
    ∃ next, w'.contexts[id]? = some next ∧ context.Le next
  prepareds : w.prepareds <+: w'.prepareds
  made : ∀ prepared ∈ w'.prepareds, prepared ∈ w.prepareds ∨ Closed prepared.context w'

namespace Evolves

theorem refl (w : Tracking Value Overlay) : Evolves w w :=
  ⟨fun _ context h => ⟨context, h, .refl _⟩, prefix_refl _, fun _ h => .inl h⟩

theorem trans {w w' w'' : Tracking Value Overlay} (h : Evolves w w') (h' : Evolves w' w'') :
    Evolves w w'' := by
  refine ⟨fun id context hid => ?_, h.prepareds.trans h'.prepareds, fun prepared hmem => ?_⟩
  · obtain ⟨mid, hmid, hle⟩ := h.contexts id context hid
    obtain ⟨next, hnext, hle'⟩ := h'.contexts id mid hmid
    exact ⟨next, hnext, hle'.owner.trans hle.owner, hle'.baseRevision.trans hle.baseRevision,
      hle.rank.trans hle'.rank⟩
  · obtain hmid | hclosed := h'.made prepared hmem
    · refine (h.made prepared hmid).imp_right ?_
      rintro ⟨context, hcontext, hrank⟩
      obtain ⟨next, hnext, hle⟩ := h'.contexts _ context hcontext
      exact ⟨next, hnext, lt_of_lt_of_le hrank hle.rank⟩
    · exact .inr hclosed

theorem prepared {w w' : Tracking Value Overlay} (h : Evolves w w') {id : ℕ}
    {prepared : PreparedImpl Value} (hid : w.prepareds[id]? = some prepared) :
    w'.prepareds[id]? = some prepared := by
  obtain ⟨rest, hrest⟩ := h.prepareds
  obtain ⟨hlt, -⟩ := List.getElem?_eq_some_iff.mp hid
  rw [← hrest, getElem?_append_left hlt, hid]

end Evolves

/-- The context is consumed, aborted or stale. -/
def Settled (id : ℕ) (w : Tracking Value Overlay) : Prop :=
  ∃ context, w.contexts[id]? = some context ∧ 2 ≤ context.status.rank

theorem Settled.closed (h : Settled id w) : Closed id w := by
  obtain ⟨context, hid, hrank⟩ := h
  exact ⟨context, hid, by omega⟩

theorem Closed.evolves (h : Closed id w) (he : Evolves w w') : Closed id w' := by
  obtain ⟨context, hid, hrank⟩ := h
  obtain ⟨next, hnext, hle⟩ := he.contexts id context hid
  exact ⟨next, hnext, lt_of_lt_of_le hrank hle.rank⟩

theorem Settled.evolves (h : Settled id w) (he : Evolves w w') : Settled id w' := by
  obtain ⟨context, hid, hrank⟩ := h
  obtain ⟨next, hnext, hle⟩ := he.contexts id context hid
  exact ⟨next, hnext, le_trans hrank hle.rank⟩

/-- The registry of a tracker holds a context. -/
def InRegistry (owner id : ℕ) (w : Tracking Value Overlay) : Prop :=
  ∃ tracker, w.trackers[owner]? = some tracker ∧
    (tracker.latest = some id ∨ id ∈ tracker.competitors)

/-- Every open context is registered, but for those of one tracker. -/
def RegisteredBut (but : Option ℕ) (w : Tracking Value Overlay) : Prop :=
  ∀ (id : ℕ) (context : OverlayContext Value Overlay), w.contexts[id]? = some context →
    context.status = .opened → but ≠ some context.owner → InRegistry context.owner id w

/-- No context is ahead of its tracker. -/
def Dated (w : Tracking Value Overlay) : Prop :=
  ∀ (id : ℕ) (context : OverlayContext Value Overlay), w.contexts[id]? = some context →
    ∃ tracker, w.trackers[context.owner]? = some tracker ∧ context.baseRevision ≤ tracker.revision

def KeepsValue (owner : ℕ) (w w' : Tracking Value Overlay) : Prop :=
  ∀ tracker, w.trackers[owner]? = some tracker → ∃ next, w'.trackers[owner]? = some next ∧
    next.value = tracker.value ∧ next.revision = tracker.revision

theorem KeepsValue.refl (owner : ℕ) (w : Tracking Value Overlay) : KeepsValue owner w w :=
  fun tracker h => ⟨tracker, h, rfl, rfl⟩

variable {w'' : Tracking Value Overlay}

theorem KeepsValue.trans {owner : ℕ} (h : KeepsValue owner w w') (h' : KeepsValue owner w' w'') :
    KeepsValue owner w w'' := by
  intro tracker htracker
  obtain ⟨mid, hmid, hvalue, hrevision⟩ := h tracker htracker
  obtain ⟨next, hnext, hvalue', hrevision'⟩ := h' mid hmid
  exact ⟨next, hnext, hvalue'.trans hvalue, hrevision'.trans hrevision⟩

/-! ### The parts of an action -/

/-- A context is changed, and nothing else but registries. -/
structure Touches (id : ℕ) (w w' : Tracking Value Overlay) : Prop where
  others : ∀ other : ℕ, other ≠ id → w'.contexts[other]? = w.contexts[other]?
  length : w'.contexts.length = w.contexts.length
  prepareds : w'.prepareds = w.prepareds
  changes : w'.changes = w.changes
  values : ∀ owner : ℕ, KeepsValue owner w w'
  registry : ∀ owner other : ℕ, other ≠ id → InRegistry owner other w → InRegistry owner other w'

theorem Touches.refl (id : ℕ) (w : Tracking Value Overlay) : Touches id w w :=
  ⟨fun _ _ => rfl, rfl, rfl, rfl, fun owner => .refl owner w, fun _ _ _ h => h⟩

theorem Touches.trans {id : ℕ} {w w' : Tracking Value Overlay} (h : Touches id w w')
    (h' : Touches id w' w'') : Touches id w w'' :=
  ⟨fun other hne => (h'.others other hne).trans (h.others other hne), h'.length.trans h.length,
    h'.prepareds.trans h.prepareds, h'.changes.trans h.changes,
    fun owner => (h.values owner).trans (h'.values owner),
    fun owner other hne hin => h'.registry owner other hne (h.registry owner other hne hin)⟩

@[simp] theorem get_setContext (id other : ℕ)
    (f : OverlayContext Value Overlay → OverlayContext Value Overlay)
    (w : Tracking Value Overlay) : (w.setContext id f).contexts[other]? =
      (w.contexts[other]?).map fun context => if id = other then f context else context := by
  rw [setContext, getElem?_modify]
  rfl

@[simp] theorem releaseContext_contexts (id : ℕ) (w : Tracking Value Overlay) :
    (w.releaseContext id).contexts = w.contexts := by
  unfold releaseContext
  split <;> rfl

theorem touches_setContext (id : ℕ)
    (f : OverlayContext Value Overlay → OverlayContext Value Overlay)
    (w : Tracking Value Overlay) : Touches id w (w.setContext id f) := by
  refine ⟨fun other hne => ?_, ?_, rfl, rfl, fun owner => .refl owner w, fun _ _ _ h => h⟩
  · rw [get_setContext]
    cases w.contexts[other]? with
    | none => rfl
    | some context => rw [map_some, if_neg (Ne.symm hne)]
  · simp [setContext]

theorem touches_releaseContext (id : ℕ) (w : Tracking Value Overlay) :
    Touches id w (w.releaseContext id) := by
  unfold releaseContext
  cases hcontext : w.contexts[id]? with
  | none => exact .refl id w
  | some context =>
    refine ⟨fun _ _ => rfl, rfl, rfl, rfl, fun owner tracker htracker => ?_, ?_⟩
    · simp only [getElem?_modify, Option.map_eq_map, htracker, map_some]
      refine ⟨_, rfl, ?_⟩
      split_ifs
      · unfold TrackerImpl.releaseContext
        split_ifs <;> exact ⟨rfl, rfl⟩
      · exact ⟨rfl, rfl⟩
    · rintro owner other hne ⟨tracker, htracker, hin⟩
      unfold InRegistry
      simp only [getElem?_modify, Option.map_eq_map, htracker, map_some]
      refine ⟨_, rfl, ?_⟩
      split_ifs
      · unfold TrackerImpl.releaseContext
        split_ifs with hlatest
        · refine .inr (hin.resolve_left fun h => hne ?_)
          exact Option.some.inj (h.symm.trans hlatest)
        · exact hin.imp_right fun h => (mem_erase_of_ne hne).mpr h
      · exact hin

theorem touches_clearContext (id : ℕ) (w : Tracking Value Overlay) :
    Touches id w (w.clearContext id) :=
  (touches_releaseContext id w).trans (touches_setContext id _ _)

theorem get_clearContext (id : ℕ) (w : Tracking Value Overlay) :
    (w.clearContext id).contexts[id]? = (w.contexts[id]?).map fun context =>
      { context with root := none, baseValue := none } := by
  rw [clearContext, get_setContext, releaseContext_contexts]
  simp

theorem Touches.evolves (h : Touches id w w')
    (hid : ∀ context : OverlayContext Value Overlay, w.contexts[id]? = some context →
      ∃ next, w'.contexts[id]? = some next ∧ context.Le next) : Evolves w w' := by
  refine ⟨fun other context hother => ?_, h.prepareds ▸ prefix_refl _,
    fun _ hmem => .inl (h.prepareds ▸ hmem)⟩
  by_cases hne : other = id
  · subst hne
    exact hid context hother
  · exact ⟨context, (h.others other hne).trans hother, .refl _⟩

theorem Touches.registered {but : Option ℕ} (h : Touches id w w') (hreg : RegisteredBut but w)
    (hid : Closed id w') : RegisteredBut but w' := by
  intro other context hother hopened hbut
  by_cases hne : other = id
  · subst hne
    obtain ⟨closed, hclosed, hrank⟩ := hid
    rw [hother] at hclosed
    obtain rfl := Option.some.inj hclosed
    rw [hopened] at hrank
    cases hrank
  · rw [h.others other hne] at hother
    exact h.registry _ _ hne (hreg other context hother hopened hbut)

@[simp] theorem get_setStatus (id : ℕ) (status : Status) (w : Tracking Value Overlay) :
    (w.setStatus id status).contexts[id]? =
      (w.contexts[id]?).map fun context => { context with status := status } := by
  rw [setStatus, get_setContext]
  simp

structure Closes (id : ℕ) (w w' : Tracking Value Overlay) : Prop where
  touches : Touches id w w'
  evolves : Evolves w w'
  closed : Closed id w'

theorem Closes.registered {but : Option ℕ} (h : Closes id w w') (hreg : RegisteredBut but w) :
    RegisteredBut but w' :=
  h.touches.registered hreg h.closed

theorem Closes.trans (h : Closes id w w') (h' : Closes id w' w'') : Closes id w w'' :=
  ⟨h.touches.trans h'.touches, h.evolves.trans h'.evolves, h'.closed⟩

theorem closes_setContext {f : OverlayContext Value Overlay → OverlayContext Value Overlay}
    {context : OverlayContext Value Overlay} (hcontext : w.contexts[id]? = some context)
    (hle : context.Le (f context)) (hrank : 0 < (f context).status.rank) :
    Closes id w (w.setContext id f) := by
  have hget : (w.setContext id f).contexts[id]? = some (f context) := by
    rw [get_setContext, hcontext]
    simp
  refine ⟨touches_setContext id f w, (touches_setContext id f w).evolves fun found hfound => ?_,
    ⟨_, hget, hrank⟩⟩
  rw [hcontext] at hfound
  obtain rfl := Option.some.inj hfound
  exact ⟨_, hget, hle⟩

theorem closes_setStatus {context : OverlayContext Value Overlay}
    (hcontext : w.contexts[id]? = some context) (hle : context.status.rank ≤ status.rank)
    (hrank : 0 < status.rank) : Closes id w (w.setStatus id status) :=
  closes_setContext hcontext ⟨rfl, rfl, hle⟩ hrank

theorem closes_clearContext (h : Closed id w) : Closes id w (w.clearContext id) := by
  obtain ⟨context, hcontext, hrank⟩ := h
  have hget : (w.clearContext id).contexts[id]? =
      some { context with root := none, baseValue := none } := by
    rw [get_clearContext, hcontext]
    rfl
  refine ⟨touches_clearContext id w, (touches_clearContext id w).evolves fun found hfound => ?_,
    ⟨_, hget, hrank⟩⟩
  rw [hcontext] at hfound
  obtain rfl := Option.some.inj hfound
  exact ⟨_, hget, rfl, rfl, le_refl _⟩

theorem closes_settle {context : OverlayContext Value Overlay}
    (hcontext : w.contexts[id]? = some context) (hrank : status.rank = 2) :
    Closes id w ((w.setStatus id status).clearContext id) ∧
      Settled id ((w.setStatus id status).clearContext id) := by
  have hle : context.status.rank ≤ status.rank := by
    rw [hrank]
    cases context.status <;> simp [Status.rank]
  have hset := closes_setStatus hcontext hle (by omega)
  refine ⟨hset.trans (closes_clearContext hset.closed), ?_⟩
  refine ⟨{ context with status := status, root := none, baseValue := none }, ?_, hrank.ge⟩
  rw [get_clearContext, get_setStatus, hcontext]
  rfl

theorem closes_abortContext {context : OverlayContext Value Overlay}
    (hcontext : w.contexts[id]? = some context) :
    Closes id w (w.abortContext id) ∧ Settled id (w.abortContext id) := by
  have hsettled : 2 ≤ context.status.rank → Closes id w w ∧ Settled id w := by
    intro hrank
    have hw : Settled id w := ⟨context, hcontext, hrank⟩
    exact ⟨⟨.refl id w, .refl w, hw.closed⟩, hw⟩
  have haborted : Closes id w ((w.setStatus id .aborted).clearContext id) ∧
      Settled id ((w.setStatus id .aborted).clearContext id) := closes_settle hcontext rfl
  unfold abortContext
  rw [hcontext]
  cases hstatus : context.status with
  | opened | prepared => simpa only [hstatus] using haborted
  | _ => simpa only [hstatus] using hsettled (by rw [hstatus]; rfl)

theorem closes_staleCompetitor {winner : ℕ} (hwinner : id = winner → Closed id w) :
    Touches id w (w.staleCompetitor winner id) ∧ Evolves w (w.staleCompetitor winner id) ∧
      (∀ context, w.contexts[id]? = some context → Closed id (w.staleCompetitor winner id)) := by
  unfold staleCompetitor
  split_ifs with h
  · exact ⟨.refl id w, .refl w, fun _ _ => hwinner h⟩
  · cases hcontext : w.contexts[id]? with
    | none =>
      refine ⟨(touches_setContext id _ w).trans (touches_clearContext id _), ?_, fun _ h => ?_⟩
      · refine ((touches_setContext id _ w).trans (touches_clearContext id _)).evolves ?_
        intro context hfound
        rw [hcontext] at hfound
        cases hfound
      · cases h
    | some context =>
      have hset := closes_setContext (f := fun (context : OverlayContext Value Overlay) =>
          if context.status = .opened ∨ context.status = .prepared then
            { context with status := .stale }
          else context) hcontext
        (by split_ifs with hstatus
            · exact ⟨rfl, rfl, by cases context.status <;> simp [Status.rank]⟩
            · exact .refl context)
        (by split_ifs with hstatus
            · simp [Status.rank]
            · obtain ⟨hopened, -⟩ := not_or.mp hstatus
              exact Nat.pos_of_ne_zero fun h => hopened (Status.rank_eq_zero.mp h))
      have hclear := hset.trans (closes_clearContext hset.closed)
      exact ⟨hclear.touches, hclear.evolves, fun _ _ => hclear.closed⟩

/-! ### Invalidation -/

/-- Nothing was handed out and no value changed. -/
structure Quiet (w w' : Tracking Value Overlay) : Prop where
  evolves : Evolves w w'
  values : ∀ owner : ℕ, KeepsValue owner w w'
  length : w'.contexts.length = w.contexts.length
  prepareds : w'.prepareds = w.prepareds
  changes : w'.changes = w.changes

theorem Quiet.refl (w : Tracking Value Overlay) : Quiet w w :=
  ⟨.refl w, fun owner => .refl owner w, rfl, rfl, rfl⟩

theorem Quiet.trans (h : Quiet w w') (h' : Quiet w' w'') : Quiet w w'' :=
  ⟨h.evolves.trans h'.evolves, fun owner => (h.values owner).trans (h'.values owner),
    h'.length.trans h.length, h'.prepareds.trans h.prepareds, h'.changes.trans h.changes⟩

theorem Touches.quiet (h : Touches id w w') (he : Evolves w w') : Quiet w w' :=
  { h with evolves := he }

theorem Quiet.context (h : Quiet w w') {next : OverlayContext Value Overlay}
    (hnext : w'.contexts[id]? = some next) :
    ∃ context, w.contexts[id]? = some context ∧ context.Le next := by
  obtain ⟨hlt, -⟩ := List.getElem?_eq_some_iff.mp hnext
  rw [h.length] at hlt
  have hget := getElem?_eq_getElem hlt
  obtain ⟨found, hfound, hle⟩ := h.evolves.contexts id _ hget
  rw [hnext] at hfound
  obtain rfl := Option.some.inj hfound
  exact ⟨_, hget, hle⟩

theorem Quiet.dated (h : Quiet w w') (hdated : Dated w) : Dated w' := by
  intro id next hnext
  obtain ⟨context, hcontext, hle⟩ := h.context hnext
  obtain ⟨tracker, htracker, hrevision⟩ := hdated id context hcontext
  obtain ⟨later, hlater, -, hsame⟩ := h.values _ tracker htracker
  rw [hle.owner, hle.baseRevision]
  exact ⟨later, hlater, hsame.symm ▸ hrevision⟩

theorem foldl_staleCompetitor {owner winner : ℕ} (ids : List ℕ) (hwinner : Closed winner w)
    (hreg : RegisteredBut (some owner) w) :
    Quiet w (ids.foldl (staleCompetitor winner) w) ∧
      RegisteredBut (some owner) (ids.foldl (staleCompetitor winner) w) ∧
      ∀ id ∈ ids, ∀ context, w.contexts[id]? = some context →
        Closed id (ids.foldl (staleCompetitor winner) w) := by
  induction ids generalizing w with
  | nil => exact ⟨.refl w, hreg, fun _ h => by cases h⟩
  | cons id ids ih =>
    have hself : id = winner → Closed id w := by
      rintro rfl
      exact hwinner
    obtain ⟨htouches, hevolves, hclosed⟩ := closes_staleCompetitor hself
    have hreg' : RegisteredBut (some owner) (w.staleCompetitor winner id) := by
      cases hid : w.contexts[id]? with
      | some context => exact htouches.registered hreg (hclosed context hid)
      | none =>
        intro other context hother hopened hbut
        have hne : other ≠ id := by
          rintro rfl
          obtain ⟨found, hfound, -⟩ := (htouches.quiet hevolves).context hother
          rw [hid] at hfound
          cases hfound
        rw [htouches.others other hne] at hother
        exact htouches.registry _ _ hne (hreg other context hother hopened hbut)
    obtain ⟨hquiet, hregs, hall⟩ := ih (hwinner.evolves hevolves) hreg'
    refine ⟨(htouches.quiet hevolves).trans hquiet, hregs, fun other hother context hcontext => ?_⟩
    obtain rfl | hother := mem_cons.mp hother
    · exact (hclosed context hcontext).evolves hquiet.evolves
    · obtain ⟨next, hnext, -⟩ := hevolves.contexts other context hcontext
      exact hall other hother next hnext

theorem invalidate_spec {owner winner : ℕ} {tracker : TrackerImpl Value}
    (htracker : w.trackers[owner]? = some tracker) (hwinner : Closed winner w)
    (hreg : RegisteredBut none w) :
    Quiet w (w.invalidate owner winner) ∧ RegisteredBut none (w.invalidate owner winner) ∧
      ∀ id context, w.contexts[id]? = some context → context.owner = owner →
        Closed id (w.invalidate owner winner) := by
  obtain ⟨hlt, -⟩ := List.getElem?_eq_some_iff.mp htracker
  set forgotten : TrackerImpl Value := { tracker with latest := none, competitors := [] }
    with hforgotten
  set cleared : Tracking Value Overlay := { w with trackers := w.trackers.set owner forgotten }
    with hcleared
  have hquiet₀ : Quiet w cleared := by
    refine ⟨⟨fun _ context h => ⟨context, h, .refl _⟩, prefix_refl _, fun _ h => .inl h⟩,
      ?_, rfl, rfl, rfl⟩
    intro other found hfound
    by_cases hother : owner = other
    · subst hother
      rw [htracker] at hfound
      obtain rfl := Option.some.inj hfound
      exact ⟨forgotten, getElem?_set_self hlt, rfl, rfl⟩
    · exact ⟨found, (getElem?_set_ne hother).trans hfound, rfl, rfl⟩
  have hreg₀ : RegisteredBut (some owner) cleared := by
    intro id context hid hopened hbut
    have hne : owner ≠ context.owner := fun h => hbut (congrArg some h)
    obtain ⟨found, hfound, hin⟩ := hreg id context hid hopened (by simp)
    exact ⟨found, (getElem?_set_ne hne).trans hfound, hin⟩
  have hrun : w.invalidate owner winner =
      (tracker.latest.toList ++ tracker.competitors).foldl (staleCompetitor winner) cleared := by
    rw [invalidate, htracker]
  obtain ⟨hquiet, hregs, hall⟩ := foldl_staleCompetitor
    (tracker.latest.toList ++ tracker.competitors) (w := cleared) hwinner hreg₀
  rw [← hrun] at hquiet hregs hall
  have hclosed : ∀ id context, w.contexts[id]? = some context → context.owner = owner →
      Closed id (w.invalidate owner winner) := by
    intro id context hid howner
    by_cases hopened : context.status = .opened
    · obtain ⟨found, hfound, hin⟩ := hreg id context hid hopened (by simp)
      rw [howner, htracker] at hfound
      obtain rfl := Option.some.inj hfound
      refine hall id (mem_append.mpr ?_) context hid
      exact hin.imp (fun h => by simp [h]) fun h => h
    · have hid' : Closed id w := ⟨context, hid, Nat.pos_of_ne_zero fun h =>
        hopened (Status.rank_eq_zero.mp h)⟩
      exact hid'.evolves (hquiet₀.trans hquiet).evolves
  refine ⟨hquiet₀.trans hquiet, ?_, hclosed⟩
  intro id next hnext hopened _
  obtain ⟨context, hcontext, hle⟩ := (hquiet₀.trans hquiet).context hnext
  refine hregs id next hnext hopened fun h => ?_
  obtain ⟨closed, hid, hrank⟩ := hclosed id context hcontext
    (hle.owner.symm.trans (Option.some.inj h).symm)
  rw [hnext] at hid
  obtain rfl := Option.some.inj hid
  rw [hopened] at hrank
  cases hrank

/-! ### Actions -/

/-- What every action keeps, but for the value it may adopt. -/
structure Follows (w w' : Tracking Value Overlay) : Prop where
  evolves : Evolves w w'
  registered : RegisteredBut none w → RegisteredBut none w'
  dated : Dated w → Dated w'

namespace Follows

theorem refl (w : Tracking Value Overlay) : Follows w w :=
  ⟨.refl w, id, id⟩

theorem trans {w w' w'' : Tracking Value Overlay} (h : Follows w w') (h' : Follows w' w'') :
    Follows w w'' :=
  ⟨h.evolves.trans h'.evolves, fun hreg => h'.registered (h.registered hreg),
    fun hdated => h'.dated (h.dated hdated)⟩

theorem of_closes {id : ℕ} {w w' : Tracking Value Overlay} (h : Closes id w w') : Follows w w' :=
  ⟨h.evolves, h.registered, (h.touches.quiet h.evolves).dated⟩

theorem keep {w w' : Tracking Value Overlay} (h : Follows w w') (changes : List ChangeImpl)
    {added : List (PreparedImpl Value)} (hadded : ∀ p ∈ added, Closed p.context w') :
    Follows w { w' with changes := changes, prepareds := w'.prepareds ++ added } := by
  refine ⟨⟨h.evolves.contexts, h.evolves.prepareds.trans (prefix_append _ _), ?_⟩,
    h.registered, h.dated⟩
  intro prepared hmem
  obtain hold | hnew := mem_append.mp hmem
  · exact h.evolves.made prepared hold
  · exact .inr (hadded prepared hnew)

end Follows

theorem follows_abortContext (id : ℕ) (w : Tracking Value Overlay) :
    Follows w (w.abortContext id) ∧ ∀ owner, KeepsValue owner w (w.abortContext id) := by
  cases hcontext : w.contexts[id]? with
  | none =>
    rw [abortContext, hcontext]
    exact ⟨.refl w, fun owner => .refl owner w⟩
  | some context =>
    obtain ⟨hcloses, -⟩ := closes_abortContext hcontext
    exact ⟨.of_closes hcloses, hcloses.touches.values⟩

theorem follows_track (initial : Value) (w : Tracking Value Overlay) :
    Follows w (w.track initial) ∧ ∀ owner, KeepsValue owner w (w.track initial) := by
  have hget : ∀ (owner : ℕ) tracker, w.trackers[owner]? = some tracker →
      (w.track initial).trackers[owner]? = some tracker := by
    intro owner tracker htracker
    obtain ⟨hlt, -⟩ := List.getElem?_eq_some_iff.mp htracker
    exact (getElem?_append_left hlt).trans htracker
  refine ⟨⟨⟨fun _ context h => ⟨context, h, .refl _⟩, prefix_refl _, fun _ h => .inl h⟩,
    ?_, ?_⟩, ?_⟩
  · intro hreg id context hid hopened hbut
    obtain ⟨tracker, htracker, hin⟩ := hreg id context hid hopened hbut
    exact ⟨tracker, hget _ _ htracker, hin⟩
  · intro hdated id context hid
    obtain ⟨tracker, htracker, hrevision⟩ := hdated id context hid
    exact ⟨tracker, hget _ _ htracker, hrevision⟩
  · exact fun owner tracker htracker => ⟨tracker, hget owner tracker htracker, rfl, rfl⟩

section Engine

variable (engine : OverlayEngine Value Overlay Write)
variable {w : Tracking Value Overlay}

theorem follows_beginChange (owner : ℕ) (w : Tracking Value Overlay) :
    Follows w (w.beginChange engine owner) ∧
      ∀ other, KeepsValue other w (w.beginChange engine owner) := by
  unfold beginChange
  cases htracker : w.trackers[owner]? with
  | none => exact ⟨.refl w, fun owner => .refl owner w⟩
  | some tracker =>
    obtain ⟨hlt, -⟩ := List.getElem?_eq_some_iff.mp htracker
    have hcontexts : ∀ (id : ℕ) (context : OverlayContext Value Overlay) (added : List _),
        w.contexts[id]? = some context → (w.contexts ++ added)[id]? = some context := by
      intro id context added hid
      obtain ⟨hlt, -⟩ := List.getElem?_eq_some_iff.mp hid
      exact (getElem?_append_left hlt).trans hid
    have hnew : ∀ (id : ℕ) (context added : OverlayContext Value Overlay),
        (w.contexts ++ [added])[id]? = some context → w.contexts[id]? = some context ∨
          id = w.contexts.length ∧ context = added := by
      intro id context added hid
      by_cases hold : id < w.contexts.length
      · exact Or.inl ((getElem?_append_left hold).symm.trans hid)
      · rw [getElem?_append_right (not_lt.mp hold)] at hid
        obtain ⟨hlen, hget⟩ := List.getElem?_eq_some_iff.mp hid
        rw [length_singleton] at hlen
        exact Or.inr ⟨by omega, by simpa using hget.symm⟩
    refine ⟨⟨⟨fun id context h => ⟨context, hcontexts id context _ h, .refl _⟩,
      prefix_refl _, fun _ h => .inl h⟩, ?_, ?_⟩, ?_⟩
    · intro hreg id context hid hopened hbut
      obtain hold | ⟨rfl, rfl⟩ := hnew id context _ hid
      · obtain ⟨found, hfound, hin⟩ := hreg id context hold hopened hbut
        by_cases hother : owner = context.owner
        · rw [← hother, htracker] at hfound
          obtain rfl := Option.some.inj hfound
          rw [← hother]
          refine ⟨_, getElem?_set_self hlt, .inr (mem_append.mpr ?_)⟩
          exact hin.symm.imp_right fun h => by simp [h]
        · exact ⟨found, (getElem?_set_ne hother).trans hfound, hin⟩
      · exact ⟨_, getElem?_set_self hlt, .inl rfl⟩
    · intro hdated id context hid
      obtain hold | ⟨rfl, rfl⟩ := hnew id context _ hid
      · obtain ⟨found, hfound, hrevision⟩ := hdated id context hold
        by_cases hother : owner = context.owner
        · rw [← hother, htracker] at hfound
          obtain rfl := Option.some.inj hfound
          rw [← hother]
          exact ⟨_, getElem?_set_self hlt, hrevision⟩
        · exact ⟨found, (getElem?_set_ne hother).trans hfound, hrevision⟩
      · exact ⟨_, getElem?_set_self hlt, le_refl _⟩
    · intro other found hfound
      by_cases hother : owner = other
      · subst hother
        rw [htracker] at hfound
        obtain rfl := Option.some.inj hfound
        exact ⟨_, getElem?_set_self hlt, rfl, rfl⟩
      · exact ⟨found, (getElem?_set_ne hother).trans hfound, rfl, rfl⟩

theorem follows_setRoot (id : ℕ) (overlay : Overlay) (w : Tracking Value Overlay) :
    Follows w (w.setContext id fun context => { context with root := some overlay }) ∧
      ∀ owner, KeepsValue owner w
        (w.setContext id fun context => { context with root := some overlay }) := by
  have htouches := touches_setContext id
    (fun context : OverlayContext Value Overlay => { context with root := some overlay }) w
  have hget := get_setContext id id
    (fun context : OverlayContext Value Overlay => { context with root := some overlay }) w
  have hevolves : Evolves w
      (w.setContext id fun context => { context with root := some overlay }) := by
    refine htouches.evolves fun context hcontext => ?_
    rw [hget, hcontext]
    exact ⟨_, rfl, by simp, by simp, by simp⟩
  refine ⟨⟨hevolves, ?_, (htouches.quiet hevolves).dated⟩, htouches.values⟩
  · intro hreg other next hnext hopened hbut
    rw [get_setContext] at hnext
    obtain ⟨context, hcontext, rfl⟩ := map_eq_some_iff.mp hnext
    split_ifs at hopened hbut ⊢
    · exact hreg other context hcontext hopened hbut
    · exact hreg other context hcontext hopened hbut

theorem follows_resumeWrite (id : ℕ) (write : Write) (w : Tracking Value Overlay) :
    Follows w (w.resumeWrite engine id write).1 ∧
      ∀ owner, KeepsValue owner w (w.resumeWrite engine id write).1 := by
  unfold resumeWrite
  cases w.contexts[id]? with
  | none => exact ⟨.refl w, fun owner => .refl owner w⟩
  | some context =>
    cases hroot : context.root with
    | none => simpa only [hroot] using ⟨Follows.refl w, fun owner => KeepsValue.refl owner w⟩
    | some overlay => simpa only [hroot] using follows_setRoot id _ w

theorem draftWrite_cases (id : ℕ) (write : Write) (w : Tracking Value Overlay) :
    (∃ error, w.draftWrite engine id write = (w, .error error)) ∨
      w.draftWrite engine id write = w.resumeWrite engine id write := by
  unfold draftWrite resumeWrite
  cases w.contexts[id]? with
  | none => exact .inl ⟨_, rfl⟩
  | some context =>
    cases hwritable : assertWritable context with
    | error error =>
      refine .inl ⟨error, ?_⟩
      cases hroot : context.root <;> simp only [hroot, hwritable]
    | ok writable =>
      right
      cases hroot : context.root <;> simp only [hroot, hwritable]

theorem follows_draftWrite (id : ℕ) (write : Write) (w : Tracking Value Overlay) :
    Follows w (w.draftWrite engine id write).1 ∧
      ∀ owner, KeepsValue owner w (w.draftWrite engine id write).1 := by
  obtain ⟨error, hdraft⟩ | hdraft := draftWrite_cases engine id write w
  · rw [hdraft]
    exact ⟨.refl w, fun owner => .refl owner w⟩
  · rw [hdraft]
    exact follows_resumeWrite engine id write w

theorem prepareContext_spec {id : ℕ} (h : Closed id w) :
    ∃ mid added, Closes id w mid ∧ (w.prepareContext engine id).1 =
        { mid with prepareds := mid.prepareds ++ added } ∧
      (∀ error, (w.prepareContext engine id).2 = .error error → Settled id mid) ∧
      ∀ prepared ∈ added, prepared.context = id := by
  obtain ⟨context, hcontext, hrank⟩ := h
  have hclear := closes_clearContext ⟨context, hcontext, hrank⟩
  obtain ⟨hsettle, hsettled⟩ : Closes id w ((w.setStatus id .aborted).clearContext id) ∧
      Settled id ((w.setStatus id .aborted).clearContext id) := closes_settle hcontext rfl
  unfold prepareContext
  simp only [hcontext]
  cases hprepared : materializePrepared engine id context w with
  | ok prepared =>
    refine ⟨_, [prepared], hclear, ?_, fun _ h => (by cases h), fun p hp => ?_⟩
    · rw [hclear.touches.prepareds]
    · obtain rfl := mem_singleton.mp hp
      unfold materializePrepared at hprepared
      cases hroot : context.root with
      | none => simp [hroot] at hprepared
      | some overlay =>
        cases hbase : context.baseValue with
        | none => simp [hroot, hbase] at hprepared
        | some base =>
          simp only [hroot, hbase, bind, Except.bind] at hprepared
          split at hprepared
          · cases hprepared
          · split at hprepared
            · cases hprepared
              rfl
            · split at hprepared
              · cases hprepared
              · cases hprepared
                rfl
  | error error => exact ⟨_, [], hsettle, by simp, fun _ _ => hsettled, fun _ h => by cases h⟩

theorem follows_prepareContext {id : ℕ} (h : Closed id w) :
    Follows w (w.prepareContext engine id).1 ∧
      ∀ owner, KeepsValue owner w (w.prepareContext engine id).1 := by
  obtain ⟨mid, added, hcloses, hrun, -, hadded⟩ := prepareContext_spec engine h
  rw [hrun]
  refine ⟨(Follows.of_closes hcloses).keep mid.changes fun p hp => ?_, hcloses.touches.values⟩
  rw [hadded p hp]
  exact hcloses.closed

theorem prepare_cases (id : ℕ) (w : Tracking Value Overlay) :
    (∃ error, w.prepare engine id = (w, .error error)) ∨
      ∃ change contextId context, w.changes[id]? = some change ∧ change.settled = false ∧
        change.context = some contextId ∧ w.contexts[contextId]? = some context ∧
        assertWritable context = .ok () ∧
        (w.prepare engine id).2 =
          ((w.setStatus contextId .prepared).prepareContext engine contextId).2 ∧
        ∃ preparedStatus, (preparedStatus = none ∨ preparedStatus = some contextId) ∧
          ((w.prepare engine id).2 = .ok () → preparedStatus = some contextId) ∧
          (w.prepare engine id).1 =
            { ((w.setStatus contextId .prepared).prepareContext engine contextId).1 with
              changes := ((w.setStatus contextId .prepared).prepareContext engine
                contextId).1.changes.set id ⟨none, preparedStatus, true⟩ } := by
  unfold prepare
  cases hchange : w.changes[id]? with
  | none => exact .inl ⟨_, rfl⟩
  | some change =>
    cases hsettled : change.settled with
    | true => exact .inl ⟨.settledChange, by simp [hsettled]⟩
    | false =>
      cases hcontext : change.context with
      | none => exact .inl ⟨.settledChange, by simp [hcontext]⟩
      | some contextId =>
        cases hget : w.contexts[contextId]? with
        | none => exact .inl ⟨.settledChange, by simp [hsettled, hcontext, hget]⟩
        | some context =>
          cases hwritable : assertWritable context with
          | error error =>
            exact .inl ⟨error, by simp [hsettled, hcontext, hget, hwritable]⟩
          | ok writable =>
            right
            refine ⟨change, contextId, context, rfl, hsettled, hcontext, hget, hwritable, ?_, ?_⟩
            · simp [hsettled, hcontext, hget, hwritable]
            · simp only [hsettled, hcontext, hget, hwritable]
              cases hresult : ((w.setStatus contextId .prepared).prepareContext engine
                contextId).2 with
              | ok result => exact ⟨some contextId, .inr rfl, fun _ => rfl, rfl⟩
              | error error => exact ⟨none, .inl rfl, fun h => (by cases h), rfl⟩

theorem opened_of_assertWritable {context : OverlayContext Value Overlay}
    (h : assertWritable context = .ok ()) : context.status = .opened := by
  unfold assertWritable assertReadable at h
  by_contra hne
  by_cases hsettled : context.isSettled = true
  · simp [hsettled, bind, Except.bind] at h
  · simp [hsettled, hne, bind, Except.bind] at h

theorem closes_prepared {id : ℕ} {context : OverlayContext Value Overlay}
    (hcontext : w.contexts[id]? = some context) (hwritable : assertWritable context = .ok ()) :
    Closes id w (w.setStatus id .prepared) := by
  refine closes_setStatus hcontext ?_ (by decide)
  rw [opened_of_assertWritable hwritable]
  exact Nat.zero_le _

theorem follows_prepare (id : ℕ) (w : Tracking Value Overlay) :
    Follows w (w.prepare engine id).1 ∧ ∀ owner, KeepsValue owner w (w.prepare engine id).1 := by
  obtain ⟨error, hrun⟩ | ⟨change, contextId, context, -, -, -, hcontext, hwritable, -,
    preparedStatus, -, -, hrun⟩ := prepare_cases engine id w
  · rw [hrun]
    exact ⟨.refl w, fun owner => .refl owner w⟩
  · have hset := closes_prepared hcontext hwritable
    obtain ⟨hfollows, hvalues⟩ := follows_prepareContext engine hset.closed
    rw [hrun]
    have hkeep := ((Follows.of_closes hset).trans hfollows)
    exact ⟨⟨⟨hkeep.evolves.contexts, hkeep.evolves.prepareds, hkeep.evolves.made⟩, hkeep.registered,
      hkeep.dated⟩, fun owner => (hset.touches.values owner).trans (hvalues owner)⟩

theorem follows_prepareReplace (owner : ℕ) (value : Value) (w : Tracking Value Overlay) :
    Follows w (w.prepareReplace engine owner value).1 ∧
      ∀ other, KeepsValue other w (w.prepareReplace engine owner value).1 := by
  unfold prepareReplace
  cases htracker : w.trackers[owner]? with
  | none => exact ⟨.refl w, fun other => .refl other w⟩
  | some tracker =>
    set context := createContext engine owner tracker.revision .prepared value true tracker.value
      with hcontext
    set extended : Tracking Value Overlay := { w with contexts := w.contexts ++ [context] }
      with hextended
    have hnew : extended.contexts[w.contexts.length]? = some context :=
      getElem?_concat_length
    have hclosed : Closed w.contexts.length extended := ⟨context, hnew, one_pos⟩
    obtain ⟨hfollows, hvalues⟩ := follows_prepareContext engine hclosed
    have hextend : Follows w extended := by
      have hcases : ∀ (id : ℕ) (found : OverlayContext Value Overlay),
          extended.contexts[id]? = some found → w.contexts[id]? = some found ∨ found = context := by
        intro id found hid
        by_cases hlt : id < w.contexts.length
        · exact .inl ((getElem?_append_left hlt).symm.trans hid)
        · obtain ⟨hlen, -⟩ := List.getElem?_eq_some_iff.mp hid
          have hid' : id = w.contexts.length := by
            simp only [hextended, length_append, length_singleton] at hlen
            omega
          subst hid'
          rw [hnew] at hid
          exact .inr (Option.some.inj hid).symm
      refine ⟨⟨fun id found hid => ?_, prefix_refl _, fun _ h => .inl h⟩, ?_, ?_⟩
      · obtain ⟨hlt, -⟩ := List.getElem?_eq_some_iff.mp hid
        exact ⟨found, (getElem?_append_left hlt).trans hid, .refl _⟩
      · intro hreg id found hid hopened hbut
        obtain hold | rfl := hcases id found hid
        · exact hreg id found hold hopened hbut
        · cases hopened
      · intro hdated id found hid
        obtain hold | rfl := hcases id found hid
        · exact hdated id found hold
        · exact ⟨tracker, htracker, le_refl _⟩
    exact ⟨hextend.trans hfollows, hvalues⟩

end Engine

theorem follows_abortPrepared (id : ℕ) (w : Tracking Value Overlay) :
    Follows w (w.abortPrepared id) ∧ ∀ owner, KeepsValue owner w (w.abortPrepared id) := by
  unfold abortPrepared
  cases w.prepareds[id]? with
  | none => exact ⟨.refl w, fun owner => .refl owner w⟩
  | some prepared => exact follows_abortContext _ w

theorem follows_abortStatus (id : ℕ) (w : Tracking Value Overlay) :
    Follows w (w.abortStatus id) ∧ ∀ owner, KeepsValue owner w (w.abortStatus id) := by
  unfold abortStatus
  cases hcontext : w.contexts[id]? with
  | none => exact ⟨.refl w, fun owner => .refl owner w⟩
  | some context =>
    by_cases hprepared : context.status = .prepared
    · have hset : Closes id w (w.setStatus id .aborted) := by
        refine closes_setStatus hcontext ?_ (by decide)
        rw [hprepared]
        decide
      simpa only [hprepared, if_true] using And.intro (Follows.of_closes hset) hset.touches.values
    · simpa only [hprepared, if_false] using
        And.intro (Follows.refl w) fun owner => KeepsValue.refl owner w

theorem follows_abortChange (id : ℕ) (w : Tracking Value Overlay) :
    Follows w (w.abortChange id) ∧ ∀ owner, KeepsValue owner w (w.abortChange id) := by
  have hkeep : ∀ (mid : Tracking Value Overlay) (changes : List ChangeImpl),
      Follows w mid ∧ (∀ owner, KeepsValue owner w mid) →
        Follows w { mid with changes := changes } ∧
          ∀ owner, KeepsValue owner w { mid with changes := changes } := by
    rintro mid changes ⟨hmid, hvalues⟩
    exact ⟨⟨⟨hmid.evolves.contexts, hmid.evolves.prepareds, hmid.evolves.made⟩, hmid.registered,
      hmid.dated⟩, hvalues⟩
  have hrefl : Follows w w ∧ ∀ owner, KeepsValue owner w w :=
    ⟨.refl w, fun owner => .refl owner w⟩
  unfold abortChange
  cases w.changes[id]? with
  | none => exact hrefl
  | some change =>
    simp only
    split_ifs with hsettled
    · apply hkeep
      cases change.preparedStatus with
      | none => exact hrefl
      | some c => exact follows_abortStatus c w
    · apply hkeep
      cases change.context with
      | none => exact hrefl
      | some c => exact follows_abortContext c w

section Adopt

variable [DecidableEq Value]

/-- A preparation is adopted when it is prepared, of this tracker and its revision; otherwise no
value changes. -/
theorem adopt_cases (owner id : ℕ) (w : Tracking Value Overlay) :
    (∃ error mid, w.adopt owner id = (mid, .error error) ∧ Follows w mid ∧
      ∀ other, KeepsValue other w mid) ∨
    ∃ tracker prepared context, w.trackers[owner]? = some tracker ∧
      w.prepareds[id]? = some prepared ∧ w.contexts[prepared.context]? = some context ∧
      context.owner = owner ∧ context.status = .prepared ∧
      context.baseRevision = tracker.revision ∧ tracker.value = prepared.base ∧
      w.adopt owner id =
        ((({ w with trackers := w.trackers.set owner { tracker with
            value := prepared.value, revision := tracker.revision + 1 } } :
            Tracking Value Overlay).setStatus prepared.context .consumed).invalidate owner
              prepared.context, .ok ()) := by
  have hrefl : Follows w w ∧ ∀ owner, KeepsValue owner w w :=
    ⟨.refl w, fun owner => .refl owner w⟩
  unfold adopt
  cases htracker : w.trackers[owner]? with
  | none => exact .inl ⟨_, w, rfl, hrefl⟩
  | some tracker =>
    cases hprepared : w.prepareds[id]? with
    | none => exact .inl ⟨_, w, rfl, hrefl⟩
    | some prepared =>
      cases hcontext : w.contexts[prepared.context]? with
      | none =>
        refine .inl ⟨.foreign, w, ?_, hrefl⟩
        simp [hcontext]
      | some context =>
        simp only [hcontext]
        by_cases howner : context.owner = owner
        · by_cases hstatus : context.status = .prepared
          · have hrank : context.status.rank ≤ Status.rank .stale := by
              rw [hstatus]
              decide
            have hset : Closes prepared.context w (w.setStatus prepared.context .stale) :=
              closes_setStatus hcontext hrank (by decide)
            by_cases hrevision : context.baseRevision = tracker.revision
            · by_cases hbase : tracker.value = prepared.base
              · refine .inr ⟨tracker, prepared, context, rfl, rfl, hcontext, howner, hstatus,
                  hrevision, hbase, ?_⟩
                simp [howner, hstatus, hrevision, hbase]
              · refine .inl ⟨.stale, w.setStatus prepared.context .stale, ?_,
                  .of_closes hset, hset.touches.values⟩
                simp [howner, hstatus, hrevision, hbase]
            · have hclear := hset.trans (closes_clearContext hset.closed)
              refine .inl ⟨.stale, (w.setStatus prepared.context .stale).clearContext
                prepared.context, ?_, .of_closes hclear, hclear.touches.values⟩
              simp [howner, hstatus, hrevision]
          · cases hfound : context.status with
            | opened => exact .inl ⟨.notReady, w, by simp [howner], hrefl⟩
            | prepared => exact absurd hfound hstatus
            | consumed => exact .inl ⟨.used, w, by simp [howner], hrefl⟩
            | aborted => exact .inl ⟨.aborted, w, by simp [howner], hrefl⟩
            | stale => exact .inl ⟨.stale, w, by simp [howner], hrefl⟩
        · exact .inl ⟨.foreign, w, by simp [howner], hrefl⟩

theorem adopt_spec {owner id : ℕ} {w : Tracking Value Overlay}
    (hok : (w.adopt owner id).2 = .ok ()) (hreg : RegisteredBut none w) :
    Evolves w (w.adopt owner id).1 ∧ RegisteredBut none (w.adopt owner id).1 ∧
      (Dated w → Dated (w.adopt owner id).1) ∧
      (∀ other, other ≠ owner → KeepsValue other w (w.adopt owner id).1) ∧
      (∀ c context, w.contexts[c]? = some context → context.owner = owner →
        Closed c (w.adopt owner id).1) ∧
      ∃ tracker prepared next, w.trackers[owner]? = some tracker ∧
        w.prepareds[id]? = some prepared ∧ w.baseRevision prepared = some tracker.revision ∧
        prepared.base = tracker.value ∧
        (w.adopt owner id).1.trackers[owner]? = some next ∧ next.value = prepared.value ∧
        next.revision = tracker.revision + 1 ∧
        Settled prepared.context (w.adopt owner id).1 := by
  obtain ⟨error, mid, hrun, -⟩ | ⟨tracker, prepared, context, htracker, hprepared, hcontext,
    howner, hstatus, hrevision, hbase, hrun⟩ := adopt_cases owner id w
  · rw [hrun] at hok
    cases hok
  · obtain ⟨hlt, -⟩ := List.getElem?_eq_some_iff.mp htracker
    set adopted : TrackerImpl Value :=
      { tracker with value := prepared.value, revision := tracker.revision + 1 } with hadopted
    set swapped : Tracking Value Overlay := { w with trackers := w.trackers.set owner adopted }
      with hswapped
    have hcontext' : swapped.contexts[prepared.context]? = some context := hcontext
    have hset : Closes prepared.context swapped
        (swapped.setStatus prepared.context .consumed) := by
      refine closes_setStatus hcontext' ?_ (by decide)
      rw [hstatus]
      decide
    have hself : swapped.trackers[owner]? = some adopted := getElem?_set_self hlt
    have hreg' : RegisteredBut none swapped := by
      intro c found hfound hopened hbut
      obtain ⟨old, hold, hin⟩ := hreg c found hfound hopened hbut
      by_cases hother : owner = found.owner
      · rw [← hother, htracker] at hold
        obtain rfl := Option.some.inj hold
        exact ⟨adopted, hother ▸ hself, hin⟩
      · exact ⟨old, (getElem?_set_ne hother).trans hold, hin⟩
    obtain ⟨mid, hmid, hvalue, hrev⟩ := hset.touches.values owner adopted hself
    obtain ⟨hquiet, hregs, hclosed⟩ := invalidate_spec hmid hset.closed (hset.registered hreg')
    rw [hrun]
    have hevolves : Evolves w swapped :=
      ⟨fun _ found h => ⟨found, h, .refl _⟩, prefix_refl _, fun _ h => .inl h⟩
    refine ⟨(hevolves.trans hset.evolves).trans hquiet.evolves, hregs, fun hdated => ?_, ?_, ?_, ?_⟩
    · refine hquiet.dated ((hset.touches.quiet hset.evolves).dated fun c found hfound => ?_)
      obtain ⟨old, hold, hle⟩ := hdated c found hfound
      by_cases hother : owner = found.owner
      · rw [← hother, htracker] at hold
        obtain rfl := Option.some.inj hold
        exact ⟨adopted, hother ▸ hself, Nat.le_succ_of_le hle⟩
      · exact ⟨old, (getElem?_set_ne hother).trans hold, hle⟩
    · intro other hne
      have hkeep : KeepsValue other w swapped := fun found hfound =>
        ⟨found, (getElem?_set_ne (Ne.symm hne)).trans hfound, rfl, rfl⟩
      exact (hkeep.trans (hset.touches.values other)).trans (hquiet.values other)
    · intro c found hfound hfoundOwner
      obtain ⟨next, hnext, hle⟩ := hset.evolves.contexts c found hfound
      exact hclosed c next hnext (hle.owner.trans hfoundOwner)
    · obtain ⟨next, hnext, hvalue', hrev'⟩ := hquiet.values owner mid hmid
      refine ⟨tracker, prepared, next, htracker, hprepared, ?_, hbase.symm, hnext,
        hvalue'.trans hvalue, hrev'.trans hrev, ?_⟩
      · rw [baseRevision, hcontext, map_some, hrevision]
      · have hsettled : Settled prepared.context (swapped.setStatus prepared.context .consumed) :=
          ⟨{ context with status := .consumed }, by rw [get_setStatus, hcontext']; rfl,
            le_refl 2⟩
        exact hsettled.evolves hquiet.evolves

end Adopt

end Tracking

end KnightCode.Delta
