import Mathlib.Logic.Function.Iterate
import Mathlib.Order.Lattice
import ServoPulse.Proofs.MovingFlag
import ServoPulse.Proofs.SoundTable

/-!
# Ramps

A channel that is left to itself arrives at its target after a number of periods that is known in
advance (`Channel.periodsLeft`): the distance, divided by the speed and rounded up. Each step of the
channel lowers that number by one (`Channel.periodsLeft_step`), with or without a speed limit and up
to the target, so `k` steps lower it by `k`.

The same holds of the largest of these numbers in a table (`ChannelTable.periodsLeft_step`), and a
channel of the table is off its target as long as it is not zero. An engine that is given no
commands does nothing to its panel but to begin periods (`Coasts.panel_eq`), and so it is known when
its channels arrive and when it stops saying that one of them moves (`Coasts.channel`,
`Coasts.moving_iff`).
-/

namespace ServoPulse

theorem foldr_max_le_iff {l : List Nat} {n : Nat} : l.foldr max 0 ≤ n ↔ ∀ x ∈ l, x ≤ n := by
  induction l with
  | nil => simp
  | cons x l ih => simp [ih]

theorem rampPeriods_eq_zero_iff {distance speed : Nat} :
    rampPeriods distance speed = 0 ↔ distance = 0 := by
  unfold rampPeriods
  by_cases h_distance : distance = 0
  · simp [h_distance]
  · by_cases h_speed : speed = 0
    · simp [h_distance, h_speed]
    · rw [if_neg h_distance, if_neg h_speed, Nat.div_eq_zero_iff]
      omega

/-- A period at a limited speed takes one period off a ramp. -/
theorem rampPeriods_sub {distance speed : Nat} (h : 0 < speed) :
    rampPeriods (distance - speed) speed = rampPeriods distance speed - 1 := by
  refine eq_of_forall_ge_iff fun n => ?_
  rw [rampPeriods_le_iff h, Nat.sub_le_iff_le_add, Nat.sub_le_iff_le_add, rampPeriods_le_iff h,
    Nat.add_one_mul]

namespace Channel

/-- How far the position is from the target. -/
def distance (c : Channel) : Nat := max c.target c.position - min c.target c.position

/-- The periods that the channel needs to arrive at its target. -/
def periodsLeft (c : Channel) : Nat := rampPeriods c.distance c.speed

variable {c : Channel}

theorem distance_step (c : Channel) :
    c.step.distance = if c.speed = 0 then 0 else c.distance - c.speed := by
  unfold distance
  rw [step_target, step_position, nextPosition]
  repeat' split
  all_goals omega

/-- **One period less.** A step takes one period off the ramp, until it has arrived. -/
theorem periodsLeft_step (c : Channel) : c.step.periodsLeft = c.periodsLeft - 1 := by
  unfold periodsLeft
  rw [distance_step, step_speed]
  by_cases h_speed : c.speed = 0
  · -- without a limit, one period covers any distance
    have h_one : rampPeriods c.distance 0 ≤ 1 := by
      unfold rampPeriods
      split
      · exact Nat.zero_le _
      · exact Nat.le_refl _
    rw [if_pos h_speed, h_speed, rampPeriods_eq_zero_iff.2 rfl]
    omega
  · -- with a limit, a period takes the speed off the distance
    rw [if_neg h_speed, rampPeriods_sub (Nat.pos_of_ne_zero h_speed)]

theorem periodsLeft_eq_zero_iff : c.periodsLeft = 0 ↔ c.position = c.target := by
  rw [periodsLeft, rampPeriods_eq_zero_iff, distance]
  omega

theorem iterate_step (c : Channel) (k : Nat) :
    (step^[k] c).periodsLeft = c.periodsLeft - k ∧ (step^[k] c).target = c.target := by
  induction k with
  | zero => exact ⟨rfl, rfl⟩
  | succ k ih =>
    rw [Function.iterate_succ_apply', periodsLeft_step, ih.1, step_target, ih.2]
    exact ⟨by omega, rfl⟩

end Channel

namespace ChannelTable

/-- The periods until the last channel has arrived. -/
def periodsLeft (t : ChannelTable) : Nat := (t.active.map Channel.periodsLeft).foldr max 0

variable {t : ChannelTable} {n : Nat}

theorem periodsLeft_le_iff : t.periodsLeft ≤ n ↔ ∀ c ∈ t.active, c.periodsLeft ≤ n := by
  rw [periodsLeft, foldr_max_le_iff, List.forall_mem_map]

theorem periodsLeft_step (t : ChannelTable) : t.step.periodsLeft = t.periodsLeft - 1 := by
  refine eq_of_forall_ge_iff fun n => ?_
  rw [Nat.sub_le_iff_le_add, periodsLeft_le_iff, periodsLeft_le_iff, active_step,
    List.forall_mem_map]
  simp only [Channel.periodsLeft_step, Nat.sub_le_iff_le_add]

/-- A channel moves as long as one of them has periods left. -/
theorem anyMoving_iff_periodsLeft : t.anyMoving = true ↔ 0 < t.periodsLeft := by
  rw [anyMoving_iff, ← Nat.not_le, periodsLeft_le_iff]
  simp only [Nat.le_zero, Channel.periodsLeft_eq_zero_iff, not_forall, exists_prop, ne_eq]

theorem iterate_step (t : ChannelTable) (k : Nat) :
    (step^[k] t).periodsLeft = t.periodsLeft - k ∧
      ∀ n, (step^[k] t).get? n = (t.get? n).map Channel.step^[k] := by
  -- induction on the number of periods
  induction k with
  | zero => exact ⟨rfl, fun n => Option.map_id'.symm⟩
  | succ k ih =>
    rw [Function.iterate_succ_apply', periodsLeft_step, ih.1]
    refine ⟨by omega, fun n => ?_⟩
    rw [← getElem?_active, active_step, List.getElem?_map, getElem?_active, ih.2 n, Option.map_map,
      Function.iterate_succ']

end ChannelTable

/-- Periods move the channels and do nothing else to the setup. -/
theorem Panel.iterate_begun (t : Panel) (k : Nat) :
    (begun^[k] t).table = ChannelTable.step^[k] t.table ∧ (begun^[k] t).started = t.started := by
  induction k with
  | zero => exact ⟨rfl, rfl⟩
  | succ k ih =>
    rw [Function.iterate_succ_apply', Function.iterate_succ_apply', ← ih.1]
    exact ⟨rfl, ih.2⟩

namespace Engine

variable {β : Type} [Board β] {p : Profile} {e e' : Engine β} {k : Nat}

/-- What happens to an engine that is given no command and no list and is not stopped, while `k`
periods begin: the board changes by itself, the interrupt is served, at whatever times, and the
engine is started again, which does nothing to one that runs. -/
inductive Coasts (p : Profile) (e : Engine β) : Nat → Engine β → Prop
  | refl : Coasts p e 0 e
  | board {k : Nat} {t : Engine β} {b : β} (h : Coasts p e k t)
      (h_board : Board.eligible b = Board.eligible t.board) : Coasts p e k { t with board := b }
  | interrupt {k : Nat} {t t' : Engine β} (h : Coasts p e k t)
      (h_run : interrupt.run p t = .ok () t') : Coasts p e (k + t'.periodsSince t.periods) t'
  | resume {k : Nat} {t t' : Engine β} {r : Except StartError Unit} (h : Coasts p e k t)
      (h_run : (start none).run p t = .ok r t') : Coasts p e k t'

/-- Starting a running engine again does nothing. -/
theorem eq_of_run_resume {r : Except StartError Unit} (h_on : e.started = true)
    (h : (start none).run p e = .ok r e') : e' = e := by
  rw [start, Action.run_get_bind] at h
  cases h_check : e.checkStart none with
  | error error =>
    -- a refused start changes nothing
    rw [h_check] at h
    exact (Action.run_pure_eq_ok_iff.1 h).2.symm
  | ok _ =>
    -- nor does the resumption of an engine that runs
    rw [h_check] at h
    simp only [if_pos h_on] at h
    exact (Action.run_pure_eq_ok_iff.1 h).2.symm

/-- A panel that stays as it is counts no period. -/
theorem periodsSince_of_eq (h : e'.panel = e.panel) : e'.periodsSince e.periods = 0 := by
  have h_periods : e'.periods = e.periods := congrArg Panel.periods h
  rw [periodsSince, h_periods, UInt32.sub_self]
  rfl

theorem periodsSince_of_begun (h : e'.panel = e.panel.begun) : e'.periodsSince e.periods = 1 := by
  have h_periods : e'.periods = e.periods + 1 := congrArg Panel.periods h
  rw [periodsSince, h_periods, UInt32.add_comm, UInt32.add_sub_cancel]
  rfl

/-- An interrupt counts the period that it begins, if it begins one. -/
theorem panel_of_run_interrupt [FixedPins β] (h : interrupt.run p e = .ok () e') :
    e'.panel = Panel.begun^[e'.periodsSince e.periods] e.panel := by
  rcases (ends_interrupt e).of_run h with h_same | ⟨-, h_begun⟩
  · rw [periodsSince_of_eq h_same]
    exact h_same
  · rw [periodsSince_of_begun h_begun]
    exact h_begun

namespace Coasts

variable [FixedPins β]

/-- **Coasting.** All that happens to the panel is that `k` periods begin. -/
theorem panel_eq (h : Coasts p e k e') (h_on : e.started = true) :
    e'.panel = Panel.begun^[k] e.panel := by
  have h_started {j : Nat} {t : Engine β} (h_t : t.panel = Panel.begun^[j] e.panel) :
      t.started = true :=
    (congrArg Panel.started h_t).trans ((e.panel.iterate_begun j).2.trans h_on)
  -- induction on the run, in which only the start of a period changes the panel
  induction h with
  | refl => rfl
  | board _ h_board ih => exact (panel_board h_board).trans ih
  | interrupt _ h_run ih =>
    rw [panel_of_run_interrupt h_run, ih, ← Function.iterate_add_apply, Nat.add_comm]
  | resume _ h_run ih =>
    obtain rfl := eq_of_run_resume (h_started ih) h_run
    exact ih

theorem table_eq (h : Coasts p e k e') (h_on : e.started = true) :
    e'.table = ChannelTable.step^[k] e.table :=
  (congrArg Panel.table (h.panel_eq h_on)).trans (e.panel.iterate_begun k).1

/-- A channel arrives as many periods later as it has left. -/
theorem channel (h : Coasts p e k e') (h_on : e.started = true) {n : Nat} {c : Channel}
    (h_c : e.channel? n = some c) :
    ∃ c', e'.channel? n = some c' ∧ c'.target = c.target ∧
      (c'.position = c'.target ↔ c.periodsLeft ≤ k) := by
  obtain ⟨h_left, h_target⟩ := c.iterate_step k
  refine ⟨Channel.step^[k] c, ?_, h_target, ?_⟩
  · -- the channel has taken a step in each period
    unfold channel? at h_c ⊢
    rw [h.table_eq h_on, (e.table.iterate_step k).2 n, h_c]
    rfl
  · -- so it has arrived when no periods are left
    rw [← Channel.periodsLeft_eq_zero_iff, h_left]
    omega

/-- Once a period has begun, the flag is up until the period after the last arrival. -/
theorem moving_iff (h : Coasts p e k e') (h_on : e.started = true) (h_k : 1 ≤ k) :
    e'.moving = true ↔ k ≤ e.table.periodsLeft := by
  -- the last period sets the flag, from the table before its step
  obtain ⟨j, rfl⟩ : ∃ j, k = j + 1 := ⟨k - 1, by omega⟩
  have h_moving : e'.moving = (ChannelTable.step^[j] e.table).anyMoving := by
    refine (congrArg Panel.moving (h.panel_eq h_on)).trans ?_
    rw [Function.iterate_succ_apply']
    exact congrArg ChannelTable.anyMoving (e.panel.iterate_begun j).1
  rw [h_moving, ChannelTable.anyMoving_iff_periodsLeft, (e.table.iterate_step j).1]
  omega

end Coasts

end Engine

end ServoPulse
