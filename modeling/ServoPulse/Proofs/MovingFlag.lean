import ServoPulse.Proofs.Panel

/-!
# The moving flag

An engine does not look at its channels whenever it is asked whether one of them moves: it keeps a
flag. The flag never hides a channel that is off its target. While the engine is not started it says
exactly whether there is one, and right after the start of a period whether there was one before
(`moving_flag`).

The invariant behind this (`Panel.Flagged`) needs a third clause: an engine that is not started is
halted, so no period begins in it, which would move channels without a look at them afterwards.
-/

namespace ServoPulse

namespace ChannelTable

variable {t : ChannelTable}

theorem anyMoving_iff : t.anyMoving = true ↔ ∃ c ∈ t.active, c.position ≠ c.target := by
  simp only [anyMoving, List.any_eq_true, Channel.isMoving_iff]

/-- A step brings no channel off its target. -/
theorem anyMoving_of_step (h : t.step.anyMoving = true) : t.anyMoving = true := by
  obtain ⟨c, hc, h_off⟩ := anyMoving_iff.1 h
  rw [active_step] at hc
  obtain ⟨d, hd, rfl⟩ := List.mem_map.1 hc
  refine anyMoving_iff.2 ⟨d, hd, fun h_on => h_off ?_⟩
  exact Channel.nextPosition_of_eq h_on

/-- Channels at rest do not move. -/
theorem anyMoving_assign {pins : List Nat} (h : pins.length ≤ maxServos) :
    (assign pins).anyMoving = false := by
  rw [anyMoving, active_assign h, List.any_map]
  exact List.any_eq_false.2 fun pin _ => Bool.false_ne_true

theorem anyMoving_iff_get? :
    t.anyMoving = true ↔ ∃ n, (t.get? n).any Channel.isMoving = true := by
  rw [anyMoving, List.any_eq_true]
  -- the active channels are those that a servo number finds
  constructor
  · rintro ⟨c, hc, h_c⟩
    obtain ⟨n, hn⟩ := List.mem_iff_getElem?.1 hc
    rw [getElem?_active] at hn
    exact ⟨n, (Option.any_eq_true _ _).2 ⟨c, hn, h_c⟩⟩
  · rintro ⟨n, hn⟩
    obtain ⟨c, h_get, h_c⟩ := (Option.any_eq_true _ _).1 hn
    rw [← getElem?_active] at h_get
    exact ⟨c, List.mem_of_getElem? h_get, h_c⟩

/-- If a channel moves after a write, then the one written to does, or some channel did before. -/
theorem anyMoving_of_modify {n : Nat} {f : Channel → Channel}
    (h : (t.modify n f).anyMoving = true) :
    ((t.modify n f).get? n).any Channel.isMoving = true ∨ t.anyMoving = true := by
  obtain ⟨m, hm⟩ := anyMoving_iff_get?.1 h
  by_cases h_eq : n = m
  · exact .inl (h_eq ▸ hm)
  · rw [get?_modify, if_neg h_eq] at hm
    exact .inr (anyMoving_iff_get?.2 ⟨m, hm⟩)

/-- A speed brings no channel off its target, and none to it. -/
theorem anyMoving_limit (t : ChannelTable) (n speed : Nat) :
    (t.modify n ({ · with speed })).anyMoving = t.anyMoving := by
  -- whether a channel moves depends on its target and position, which stay as they are
  refine Bool.eq_iff_iff.2 ?_
  rw [anyMoving_iff_get?, anyMoving_iff_get?]
  refine exists_congr fun m => ?_
  rw [get?_modify]
  split
  · rw [Option.any_map]
    rfl
  · rfl

end ChannelTable

namespace Panel

/-- The flag covers every channel off its target, and says exactly whether there is one while the
engine is not started; then it is halted. -/
structure Flagged (t : Panel) : Prop where
  covers : t.table.anyMoving = true → t.moving = true
  exact_of_off : t.started = false → t.moving = t.table.anyMoving
  halted_of_off : t.started = false → t.halted = true

variable {t t' : Panel}

/-- A look at the channels. -/
theorem Flagged.of_eq (h_moving : t.moving = t.table.anyMoving)
    (h_halted : t.started = false → t.halted = true) : t.Flagged :=
  ⟨fun h => h_moving.trans h, fun _ => h_moving, h_halted⟩

/-- A new target keeps the flag right: it raises it where the channel has to move, and otherwise
the flag stays up or is looked up. -/
theorem Flagged.retarget (h_flag : t.Flagged) (servo ticks : Nat) :
    (t.retargeted servo ticks).Flagged := by
  unfold retargeted
  refine ⟨fun h_any => ?_, fun h_off => ?_, h_flag.halted_of_off⟩
  · rcases ChannelTable.anyMoving_of_modify h_any with h_written | h_before
    · exact if_pos h_written
    · -- something else moves, for which the flag was up before
      change (if _ then true else if t.started = true then t.moving else _) = true
      rw [h_flag.covers h_before]
      split
      · rfl
      · split
        · rfl
        · exact h_any
  · -- of an engine that is off, the flag is looked up afresh
    change (if _ then true else if t.started = true then t.moving else _) = _
    split
    · rename_i h_written
      exact (ChannelTable.anyMoving_iff_get?.2 ⟨servo, h_written⟩).symm
    · rw [if_neg (Bool.eq_false_iff.1 h_off)]

theorem Step.flagged (h : Step t t') (h_flag : t.Flagged) : t'.Flagged := by
  -- one case for each step of a panel
  cases h with
  | advance h_on =>
    -- only an engine that is started runs, and what moves afterwards has moved before
    have h_started : t.started ≠ false := fun h_off =>
      Bool.noConfusion (h_on.symm.trans (h_flag.halted_of_off h_off))
    exact ⟨ChannelTable.anyMoving_of_step, fun h_off => absurd h_off h_started,
      fun h_off => absurd h_off h_started⟩
  | count => exact ⟨h_flag.covers, h_flag.exact_of_off, h_flag.halted_of_off⟩
  | retarget => exact h_flag.retarget _ _
  | @limit servo speed =>
    -- a new speed does not make a channel move or stop
    have h_same := t.table.anyMoving_limit servo speed
    refine ⟨fun h_any => h_flag.covers (h_same.symm.trans h_any), fun h_off => ?_,
      h_flag.halted_of_off⟩
    exact (h_flag.exact_of_off h_off).trans h_same.symm
  | relist h_pins =>
    -- the channels are new, and at rest
    refine .of_eq ?_ h_flag.halted_of_off
    exact (ChannelTable.anyMoving_assign (Engine.checkPins_ok h_pins).1).symm
  | look => exact .of_eq rfl h_flag.halted_of_off
  | launch =>
    -- of an engine that is on, only the first condition is asked
    exact ⟨h_flag.covers, nofun, nofun⟩
  | shutDown => exact .of_eq rfl fun _ => rfl

theorem Steps.flagged (h : Steps t t') (h_flag : t.Flagged) : t'.Flagged := by
  induction h with
  | refl => exact h_flag
  | tail _ h_step ih => exact h_step.flagged ih

end Panel

namespace Engine

/-- **The moving flag.** In every state of a run of a new engine on any board: a channel off its
target is never hidden, an engine that is not started says exactly whether there is one, and once
the interrupt has begun a period the flag says whether there was one just before the channels were
moved. -/
theorem moving_flag {β : Type} [Board β] [FixedPins β] {p : Profile} {board : β} {config : Config}
    {e : Engine β} (h : Events p { board, config } e) :
    ((∃ c ∈ e.table.active, c.position ≠ c.target) → e.moving = true) ∧
      (e.started = false → (e.moving = true ↔ ∃ c ∈ e.table.active, c.position ≠ c.target)) ∧
      ∀ e', interrupt.EndsIn p e e' → e'.periods ≠ e.periods →
        e'.table = e.table.step ∧
          (e'.moving = true ↔ ∃ c ∈ e.table.active, c.position ≠ c.target) := by
  -- the flag holds from the start, as no channel is in the table there
  have h_flag : e.panel.Flagged := Panel.Steps.flagged h.panel_steps (.of_eq rfl fun _ => rfl)
  refine ⟨fun h_off => ?_, fun h_off => ?_, fun e' h_end h_periods => ?_⟩
  · exact h_flag.covers (ChannelTable.anyMoving_iff.2 h_off)
  · -- an engine that is off shows exactly whether a channel moves
    rw [← ChannelTable.anyMoving_iff]
    exact Bool.eq_iff_iff.1 (h_flag.exact_of_off h_off)
  · have h_begun := panel_of_interrupt_periods h_end h_periods
    -- the period sets the flag from the table it began with
    have h_moving : e'.moving = e.table.anyMoving := congrArg Panel.moving h_begun
    rw [h_moving]
    exact ⟨congrArg Panel.table h_begun, ChannelTable.anyMoving_iff⟩

/-- A run up to the overflow that begins the period in which a channel arrives at its target. -/
def arrivalRun : Option (Engine (Bench PinRecorder)) :=
  replay? .debug
    [.start (some [2]), .command (.targetTicks 0 30000), .command (.speed 0 10000), .advance 65536,
      .interrupt, .advance 65536, .interrupt, .command (.targetTicks 0 35000), .advance 65536]
    (freshRecorded { wrapsPerPeriod := 1 } 0 0)

theorem isSome_arrivalRun : arrivalRun.isSome = true := by decide +kernel

/-- The interrupt of that overflow. -/
def arrivalServed : Option (Unit × Engine (Bench PinRecorder)) :=
  Engine.interrupt.result? .debug (arrivalRun.get isSome_arrivalRun)

theorem isSome_arrivalServed : arrivalServed.isSome = true := by decide +kernel

theorem moving_flag_arrivalRun :
    (arrivalServed.get isSome_arrivalServed).2.table.active =
        [{ pin := 2, target := 35000, position := 35000, speed := 10000 }] ∧
      (arrivalServed.get isSome_arrivalServed).2.moving = true := by
  have h_run := events_of_replay? (Option.some_get isSome_arrivalRun).symm
  have h_served : Engine.interrupt.run .debug (arrivalRun.get isSome_arrivalRun) =
      .ok () (arrivalServed.get isSome_arrivalServed).2 := by
    refine Action.run_eq_ok_of_result? ?_
    rw [Prod.eta, Option.some_get, arrivalServed]
  -- the target was set before the period and is reached in it
  obtain ⟨-, -, h_begun⟩ := moving_flag h_run
  refine ⟨by decide +kernel, (h_begun _ (.inl ⟨_, h_served⟩) (by decide +kernel)).2.2 ?_⟩
  exact ⟨{ pin := 2, target := 35000, position := 30000, speed := 10000 }, by decide +kernel,
    by decide⟩

end Engine

end ServoPulse
