import Monomorph.Watch.Debouncer

/-!
# Runs of the debouncer

What holds in every state that some interleaving of moves leads to. Actions never overlap, and a
trigger is not forgotten: until an action starts, a timer no older than the trigger is on its way to
start one (`running_and_pending`). The handle is less reliable: a timer that expired clears it
without looking, and a newer timer that it names then stays armed with nothing to stop it by. As long
as this does not happen the handle names the only armed timer (`tracked_iff`).
-/

namespace Monomorph.Debouncer

variable {d e : Debouncer} {m : Move} {n t : Nat} {moves earlier later : List Move}

-- ---------------------------------------------------------------------------
-- Steps and runs
-- ---------------------------------------------------------------------------

/-- What each move does, and when it can be made. -/
inductive Step (d : Debouncer) : Move → Debouncer → Prop where
  | trigger : Step d .trigger
      { d with
        started := d.started + 1
        armed := d.disarm.armed ++ [d.started]
        handle := some d.started }
  | cancel : Step d .cancel { d with armed := d.disarm.armed, handle := none }
  | expire {t : Nat} : t ∈ d.armed → Step d (.expire t)
      { d with armed := d.armed.erase t, expired := d.expired ++ [t] }
  | clear {t : Nat} : t ∈ d.expired → Step d (.clear t)
      { d with handle := none, expired := d.expired.erase t, waiting := d.waiting ++ [t] }
  | start {t : Nat} : t ∈ d.waiting → d.locked = false → Step d (.start t)
      { d with waiting := d.waiting.erase t, locked := true, running := d.running ++ [t] }
  | finish {t : Nat} : t ∈ d.running → Step d (.finish t)
      { d with locked := false, running := d.running.erase t }

theorem disarm_eq (d : Debouncer) : d.disarm = { d with armed := d.disarm.armed } := by
  unfold disarm
  split <;> rfl

theorem step_of_step? (h : d.step? m = some e) : Step d m e := by
  cases m with
  | trigger =>
    rw [step?, trigger, disarm_eq] at h
    cases h
    exact .trigger
  | cancel =>
    rw [step?, cancel, disarm_eq] at h
    cases h
    exact .cancel
  | expire t =>
    obtain ⟨ht, ⟨⟩⟩ := Option.ite_none_right_eq_some.mp h
    exact .expire ht
  | clear t =>
    obtain ⟨ht, ⟨⟩⟩ := Option.ite_none_right_eq_some.mp h
    exact .clear ht
  | start t =>
    obtain ⟨⟨ht, hfree⟩, ⟨⟩⟩ := Option.ite_none_right_eq_some.mp h
    exact .start ht hfree
  | finish t =>
    obtain ⟨ht, ⟨⟩⟩ := Option.ite_none_right_eq_some.mp h
    exact .finish ht

theorem exists_step (h : after (m :: earlier) = some e) :
    ∃ d, after earlier = some d ∧ Step d m e := by
  obtain ⟨d, hd, hm⟩ := Option.bind_eq_some_iff.mp h
  exact ⟨d, hd, step_of_step? hm⟩

theorem after_induction {P : List Move → Debouncer → Prop} (init : P [] {})
    (step : ∀ {m earlier d e}, P earlier d → Step d m e → P (m :: earlier) e)
    (h : after moves = some d) : P moves d := by
  induction moves generalizing d with
  | nil =>
    cases h
    exact init
  | cons m earlier ih =>
    obtain ⟨c, hc, hstep⟩ := exists_step h
    exact step (ih hc) hstep

-- ---------------------------------------------------------------------------
-- One action at a time
-- ---------------------------------------------------------------------------

theorem Step.length_running (h : Step d m e) (hd : d.running.length = d.locked.toNat) :
    e.running.length = e.locked.toNat := by
  cases h with
  | trigger | cancel | expire _ | clear _ => exact hd
  | start _ hfree =>
    rw [hfree] at hd
    simp [List.length_eq_zero_iff.mp hd]
  | finish ht =>
    -- the timer that ends its action is the one that holds the lock
    rw [List.length_erase_of_mem ht, hd]
    cases d.locked <;> rfl

theorem length_running (h : after moves = some d) : d.running.length = d.locked.toNat :=
  after_induction (P := fun _ d => d.running.length = d.locked.toNat) rfl
    (fun hd hstep => hstep.length_running hd) h

-- ---------------------------------------------------------------------------
-- Timers on their way
-- ---------------------------------------------------------------------------

/-- A timer that has yet to start the action: it is armed, or it expired. -/
def IsPending (d : Debouncer) (t : Nat) : Prop :=
  t ∈ d.armed ∨ t ∈ d.expired ∨ t ∈ d.waiting

theorem started_eq (h : after moves = some d) : d.started = moves.count .trigger := by
  refine after_induction (P := fun moves d => d.started = moves.count .trigger) rfl ?_ h
  intro m earlier d e hd hstep
  cases hstep <;> simp [hd]

/-- Only a start or a cancellation takes a timer off its way, unless a newer one replaces it. -/
theorem Step.exists_pending (h : Step d m e) (hcancel : m ≠ .cancel) (hstart : ∀ t, m ≠ .start t)
    (hn : n ≤ d.started) (hd : ∃ t, n ≤ t ∧ d.IsPending t) : ∃ t, n ≤ t ∧ e.IsPending t := by
  obtain ⟨t, hle, ht⟩ := hd
  cases h with
  | trigger => exact ⟨d.started, hn, .inl (by simp)⟩
  | cancel => exact absurd rfl hcancel
  | @expire u hu =>
    refine ⟨t, hle, ?_⟩
    by_cases htu : t = u
    · exact .inr (.inl (by simp [htu]))
    · simpa [IsPending, List.mem_erase_of_ne htu, htu] using ht
  | @clear u hu =>
    refine ⟨t, hle, ?_⟩
    by_cases htu : t = u
    · exact .inr (.inr (by simp [htu]))
    · simpa [IsPending, List.mem_erase_of_ne htu, htu] using ht
  | @start u _ _ => exact absurd rfl (hstart u)
  | finish _ => exact ⟨t, hle, ht⟩

theorem exists_pending (h : after (later ++ .trigger :: earlier) = some d)
    (hcancel : .cancel ∉ later) (hstart : ∀ t, .start t ∉ later) :
    ∃ t, earlier.count .trigger ≤ t ∧ d.IsPending t := by
  -- the timer that the trigger has made is on its way, and every later move keeps one there
  induction later generalizing d with
  | nil =>
    obtain ⟨c, hc, hstep⟩ := exists_step h
    cases hstep
    exact ⟨c.started, Nat.le_of_eq (started_eq hc).symm, .inl (by simp)⟩
  | cons m later ih =>
    simp only [List.mem_cons, not_or] at hcancel hstart
    rw [List.cons_append] at h
    obtain ⟨c, hc, hstep⟩ := exists_step h
    refine hstep.exists_pending (Ne.symm hcancel.1) (fun t => Ne.symm (hstart t).1) ?_
      (ih hc hcancel.2 fun t => (hstart t).2)
    rw [started_eq hc, List.count_append, List.count_cons]
    omega

/-- Whatever the interleaving, no two actions run at a time. And when a trigger has come, with no
start of an action and no cancellation since, a timer of this trigger or a later one is armed or has
expired and has yet to start its action. -/
theorem running_and_pending (h : after moves = some d) :
    d.running.length ≤ 1 ∧
      ∀ later earlier, moves = later ++ .trigger :: earlier → .cancel ∉ later →
        (∀ t, .start t ∉ later) → ∃ t, earlier.count .trigger ≤ t ∧ d.IsPending t := by
  constructor
  · rw [length_running h]
    exact d.locked.toNat_le
  · rintro later earlier rfl hcancel hstart
    exact exists_pending h hcancel hstart

/-- An action runs, a newer timer expired, and the newest is still armed. -/
theorem running_and_pending_busy :
    let d : Debouncer :=
      { started := 3, armed := [2], handle := some 2, expired := [1], locked := true,
        running := [0] }
    after [.expire 1, .trigger, .start 0, .clear 0, .trigger, .expire 0, .trigger] = some d ∧
      d.running.length ≤ 1 ∧ ∃ t, 2 ≤ t ∧ d.IsPending t := by
  intro d
  have h : after [.expire 1, .trigger, .start 0, .clear 0, .trigger, .expire 0, .trigger] =
      some d := rfl
  obtain ⟨hone, hpending⟩ := running_and_pending h
  exact ⟨h, hone, hpending [.expire 1] _ rfl (by decide) (by simp)⟩

-- ---------------------------------------------------------------------------
-- The handle
-- ---------------------------------------------------------------------------

/-- At most one timer is armed, and the handle names it. -/
structure Tracked (d : Debouncer) : Prop where
  length_le : d.armed.length ≤ 1
  handle : ∀ t ∈ d.armed, d.handle = some t

instance (d : Debouncer) : Decidable d.Tracked :=
  decidable_of_iff (d.armed.length ≤ 1 ∧ ∀ t ∈ d.armed, d.handle = some t)
    ⟨fun h => ⟨h.1, h.2⟩, fun h => ⟨h.1, h.2⟩⟩

theorem tracked_iff_armed :
    d.Tracked ↔ d.armed = [] ∨ ∃ t, d.armed = [t] ∧ d.handle = some t := by
  constructor
  · rintro ⟨hlength, hhandle⟩
    match ha : d.armed with
    | [] => exact .inl rfl
    | [t] => exact .inr ⟨t, rfl, hhandle t (by simp [ha])⟩
    | t :: u :: more => simp [ha] at hlength
  · rintro (hnil | ⟨t, hone, hhandle⟩)
    · exact ⟨by simp [hnil], by simp [hnil]⟩
    · exact ⟨by simp [hone], by simp [hone, hhandle]⟩

/-- Whether a move takes away the handle of a timer that is armed: one that expired before clears
it. -/
def dropsHandle (d : Debouncer) : Move → Bool
  | .clear _ => d.handle.any (d.armed.contains ·)
  | _ => false

/-- Whether a timer has lost its handle in the course of some moves. -/
def hasDropped : List Move → Bool
  | [] => false
  | m :: earlier => (after earlier).any (·.dropsHandle m) || hasDropped earlier

theorem Tracked.disarm (h : d.Tracked) : d.disarm.armed = [] := by
  unfold Debouncer.disarm
  obtain hnil | ⟨t, hone, hhandle⟩ := tracked_iff_armed.mp h
  · cases d.handle <;> simp [hnil]
  · simp [hone, hhandle]

/-- The one step that loses track of an armed timer. -/
theorem Step.next_tracked_iff (h : Step d m e) (hd : d.Tracked) :
    e.Tracked ↔ d.dropsHandle m = false := by
  have harmed := tracked_iff_armed.mp hd
  rw [tracked_iff_armed]
  cases h with
  | trigger => simp [dropsHandle, hd.disarm]
  | cancel => simp [dropsHandle, hd.disarm]
  | expire ht =>
    obtain hnil | ⟨u, hone, -⟩ := harmed
    · simp [hnil] at ht
    · simp [dropsHandle, hone, List.mem_singleton.mp (hone ▸ ht)]
  | clear _ =>
    obtain hnil | ⟨u, hone, hhandle⟩ := harmed
    · simp [dropsHandle, hnil]
    · simp [dropsHandle, hone, hhandle]
  | start _ _ | finish _ => simpa [dropsHandle] using harmed

theorem forall_tracked_iff (h : after moves = some d) :
    (∀ earlier, earlier <:+ moves → ∀ e, after earlier = some e → e.Tracked) ↔
      hasDropped moves = false := by
  induction moves generalizing d with
  | nil => simp [hasDropped, after, tracked_iff_armed]
  | cons m moves ih =>
    obtain ⟨c, hc, hstep⟩ := exists_step h
    simp only [List.suffix_cons_iff, or_imp, forall_and, forall_eq, h, Option.some.injEq,
      forall_eq', hasDropped, hc, Option.any_some, Bool.or_eq_false_iff, ← ih hc]
    refine and_congr_left fun hall => ?_
    exact hstep.next_tracked_iff (hall moves (List.suffix_refl _) c hc)

theorem Step.armed_eq_nil (h : Step d m e) (hm : m ≠ .trigger) (hd : d.armed = []) :
    e.armed = [] := by
  cases h with
  | trigger => exact absurd rfl hm
  | cancel => exact (tracked_iff_armed.mpr (.inl hd)).disarm
  | expire ht => simp [hd] at ht
  | clear _ | start _ _ | finish _ => exact hd

theorem armed_eq_nil_of_cancel (h : after (later ++ .cancel :: earlier) = some d)
    (htracked : ∀ e, after earlier = some e → e.Tracked) (hlater : .trigger ∉ later) :
    d.armed = [] := by
  induction later generalizing d with
  | nil =>
    obtain ⟨c, hc, hstep⟩ := exists_step h
    cases hstep
    exact (htracked c hc).disarm
  | cons m later ih =>
    simp only [List.mem_cons, not_or] at hlater
    rw [List.cons_append] at h
    obtain ⟨c, hc, hstep⟩ := exists_step h
    exact hstep.armed_eq_nil (Ne.symm hlater.1) (ih hc hlater.2)

/-- At every point of a run at most one timer is armed and the handle names it, exactly when no
expired timer clears the handle of an armed one in it. Then nothing is armed after a cancellation,
until the next trigger. -/
theorem tracked_iff (h : after moves = some d) :
    ((∀ earlier, earlier <:+ moves → ∀ e, after earlier = some e → e.Tracked) ↔
        hasDropped moves = false) ∧
      (hasDropped moves = false → ∀ later earlier, moves = later ++ .cancel :: earlier →
        .trigger ∉ later → d.armed = []) := by
  refine ⟨forall_tracked_iff h, ?_⟩
  rintro hkept later earlier rfl hlater
  have hall := (forall_tracked_iff h).mpr hkept
  refine armed_eq_nil_of_cancel h (hall earlier ?_) hlater
  exact (List.suffix_cons ..).trans (List.suffix_append ..)

/-- A timer expires and clears its own handle, a second one is cancelled, and the first one runs its
action. -/
theorem tracked_iff_cancelled :
    let d : Debouncer := { started := 2, locked := true, running := [0] }
    let moves : List Move := [.start 0, .cancel, .trigger, .clear 0, .expire 0, .trigger]
    after moves = some d ∧ hasDropped moves = false ∧ d.armed = [] ∧
      ∀ earlier, earlier <:+ moves → ∀ e, after earlier = some e → e.Tracked := by
  intro d moves
  have h : after moves = some d := rfl
  obtain ⟨hall, hcancel⟩ := tracked_iff h
  exact ⟨h, rfl, hcancel rfl [.start 0] _ rfl (by decide), hall.mpr rfl⟩

/-- A timer expires, a trigger arms a second one, and then the first clears the handle. The second
stays armed beside the one that a further trigger arms; and a cancellation does not stop it from
running its action. -/
theorem not_tracked_of_late_clear :
    (∃ d, after [.clear 0, .trigger, .expire 0, .trigger] = some d ∧ d.armed = [1] ∧
      d.handle = none ∧ ¬d.Tracked) ∧
    (∃ d, after [.trigger, .clear 0, .trigger, .expire 0, .trigger] = some d ∧
      d.armed = [1, 2] ∧ ¬d.Tracked) ∧
    (∃ d, after [.cancel, .clear 0, .trigger, .expire 0, .trigger] = some d ∧ d.armed = [1]) ∧
    ∃ d, after [.start 1, .clear 1, .expire 1, .cancel, .clear 0, .trigger, .expire 0,
      .trigger] = some d ∧ d.running = [1] :=
  ⟨⟨_, rfl, rfl, rfl, by decide⟩, ⟨_, rfl, rfl, by decide⟩, ⟨_, rfl, rfl⟩, ⟨_, rfl, rfl⟩⟩

end Monomorph.Debouncer
