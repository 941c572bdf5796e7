import ServoPulse.Proofs.Effects.Pulses
import ServoPulse.Proofs.Scope

/-!
# The pulse schedule

The level changes that an engine ought to make, as a property of them: period `k` starts at
`periodStart`, a whole number of turns after the timer; every channel that pulses then rises
at the start of the period and falls after its width (`Scheduled`). The widths come from the
table in force at the start of the period, after its step.

Where arming the compare channel takes time, the falls may come late, each by a number of ticks of
its own (`ScheduledLate`). What an engine has made of such a schedule by the time `r` for the rises
and the time `s` for the falls is `Made`.
-/

namespace ServoPulse

/-- The time at which the period `k`, counted from zero, starts: the timer started at
`origin`, its first overflow begins the first period, and each period has `wraps` turns. -/
def periodStart (wraps origin k : Nat) : Nat := origin + ticksPerWrap * (1 + k * wraps)

/-- The level changes that are due by the time `now`, where `inForce` is the table in force at
a time: every channel that pulses in a period rises as it starts, and falls after its
width. -/
def Scheduled (wraps origin : Nat) (inForce : Nat → ChannelTable) (now : Nat) (x : Edge) : Prop :=
  ∃ k, ∃ c ∈ (inForce (periodStart wraps origin k)).step.active, c.position ≠ 0 ∧
    (x = .rise (periodStart wraps origin k) c.pin ∧ periodStart wraps origin k ≤ now ∨
      x = .fall (periodStart wraps origin k + c.position) c.pin ∧
        periodStart wraps origin k + c.position ≤ now)

/-- The level changes that are due by the time `now`, where the fall of servo `servo` in the period
`k` comes `late k servo` ticks late. -/
def ScheduledLate (wraps origin : Nat) (late : Nat → Nat → Nat) (inForce : Nat → ChannelTable)
    (now : Nat) (x : Edge) : Prop :=
  ∃ k servo c, (inForce (periodStart wraps origin k)).step.active[servo]? = some c ∧
    c.position ≠ 0 ∧
    (x = .rise (periodStart wraps origin k) c.pin ∧ periodStart wraps origin k ≤ now ∨
      x = .fall (periodStart wraps origin k + c.position + late k servo) c.pin ∧
        periodStart wraps origin k + c.position ≤ now)

/-- The rises that are due by the time `r` and the falls that are due by the time `s`. -/
def Made (wraps origin : Nat) (late : Nat → Nat → Nat) (inForce : Nat → ChannelTable)
    (r s : Nat) (x : Edge) : Prop :=
  ∃ k, ∃ f ∈ (inForce (periodStart wraps origin k)).step.falls,
    (x = .rise (periodStart wraps origin k) f.pin ∧ periodStart wraps origin k ≤ r ∨
      x = .fall (periodStart wraps origin k + f.due + late k f.servo) f.pin ∧
        periodStart wraps origin k + f.due ≤ s)

section Time

variable {wraps origin k l s : Nat}

/-- The first period starts with the first overflow. -/
theorem lt_periodStart : origin < periodStart wraps origin k := by
  rw [periodStart]
  simp only [ticksPerWrap]
  omega

theorem periodStart_le_iff (h : origin ≤ s) :
    periodStart wraps origin k ≤ s ↔ 1 + k * wraps ≤ (s - origin) / ticksPerWrap := by
  rw [Nat.le_div_iff_mul_le (by decide), periodStart, Nat.mul_comm]
  omega

/-- Periods that start with the same turn are the same. -/
theorem periodStart_congr (h : 1 + k * wraps = 1 + l * wraps) :
    periodStart wraps origin k = periodStart wraps origin l := by
  rw [periodStart, h, periodStart]

/-- The first turn of a period. -/
theorem turn_of_periodStart (h_le : periodStart wraps origin k ≤ s)
    (h_lt : s < periodStart wraps origin k + ticksPerWrap) :
    (s - origin) / ticksPerWrap = 1 + k * wraps ∧
      (s - origin) % ticksPerWrap = s - periodStart wraps origin k := by
  unfold periodStart at *
  generalize 1 + k * wraps = n at *
  simp only [ticksPerWrap] at *
  omega

end Time

/-- A servo has one fall in a period. -/
theorem ChannelTable.fall_eq_of_servo {t : ChannelTable} {f g : Fall} (hf : f ∈ t.falls)
    (hg : g ∈ t.falls) (h : f.servo = g.servo) : f = g := by
  obtain ⟨c, servo, h_c, -, rfl⟩ := ChannelTable.mem_falls.1 hf
  obtain ⟨d, servo', h_d, -, rfl⟩ := ChannelTable.mem_falls.1 hg
  obtain rfl : servo = servo' := h
  obtain rfl := Option.some.inj (h_c.symm.trans h_d)
  rfl

/-! ### What is due -/

section Scheduled

variable {wraps origin r s : Nat} {late late' : Nat → Nat → Nat}
  {inForce inForce' : Nat → ChannelTable} {x : Edge}

/-- What is due by now is made by now. -/
theorem scheduledLate_iff_made :
    ScheduledLate wraps origin late inForce s x ↔ Made wraps origin late inForce s s x := by
  constructor
  · rintro ⟨k, servo, c, hc, h_zero, h_x⟩
    exact ⟨k, _, ChannelTable.mem_falls.2 ⟨c, servo, hc, h_zero, rfl⟩, h_x⟩
  · rintro ⟨k, f, hf, h_x⟩
    obtain ⟨c, servo, hc, h_zero, rfl⟩ := ChannelTable.mem_falls.1 hf
    exact ⟨k, servo, c, hc, h_zero, h_x⟩

/-- The schedule of falls that are never late. -/
theorem scheduled_iff_made (h_late : ∀ k servo, late k servo = 0) :
    Scheduled wraps origin inForce s x ↔ Made wraps origin late inForce s s x := by
  rw [← scheduledLate_iff_made]
  simp only [ScheduledLate, h_late, Nat.add_zero]
  refine exists_congr fun k => ?_
  -- a channel of the table stands in one of its places
  constructor
  · rintro ⟨c, hc, h_rest⟩
    obtain ⟨servo, h_servo⟩ := List.mem_iff_getElem?.1 hc
    exact ⟨servo, c, h_servo, h_rest⟩
  · rintro ⟨servo, c, h_servo, h_rest⟩
    exact ⟨c, List.mem_of_getElem? h_servo, h_rest⟩

/-- Only the tables in force up to now matter, and how late the falls up to now are. -/
theorem made_congr (h_le : s ≤ r) (h_table : ∀ T ≤ r, inForce' T = inForce T)
    (h_late : ∀ k, ∀ f ∈ (inForce (periodStart wraps origin k)).step.falls,
      periodStart wraps origin k + f.due ≤ s → late' k f.servo = late k f.servo) :
    Made wraps origin late' inForce' r s x ↔ Made wraps origin late inForce r s x := by
  constructor
  · rintro ⟨k, f, hf, h_x⟩
    -- a table that is asked about has been in force up to now
    have h_begun : periodStart wraps origin k ≤ r := by omega
    rw [h_table _ h_begun] at hf
    refine ⟨k, f, hf, h_x.imp_right ?_⟩
    rintro ⟨rfl, h_due⟩
    exact ⟨by rw [h_late k f hf h_due], h_due⟩
  · rintro ⟨k, f, hf, h_x⟩
    have h_begun : periodStart wraps origin k ≤ r := by omega
    refine ⟨k, f, (h_table _ h_begun).symm ▸ hf, h_x.imp_right ?_⟩
    -- its fall was due by now, so both latenesses agree on it
    rintro ⟨rfl, h_due⟩
    exact ⟨by rw [h_late k f hf h_due], h_due⟩

end Scheduled

end ServoPulse
