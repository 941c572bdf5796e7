import ServoPulse.Proofs.Panel

/-!
# Sound channel tables

In every state that an engine can reach, on any board and by any calls, its channels are on distinct
eligible pins, no width is beyond the largest target, a channel is silent exactly if it was told to
be, and the slots past the configured ones are empty (`channel_table_sound`).

The widths rest on three facts about one channel (`Channel.InRange`): a target is cut down before it
is written, the position moves between its old value and the target and so never through zero
(`Channel.InRange.step`), and it follows at once where either is zero (`Channel.InRange.aim`).
-/

namespace ServoPulse

/-- A channel with widths up to the largest target, which is silent exactly if it was told to be. -/
structure Channel.InRange (c : Channel) : Prop where
  target_le : c.target ≤ maxTargetTicks
  position_le : c.position ≤ maxTargetTicks
  position_eq_zero_iff : c.position = 0 ↔ c.target = 0

namespace Channel.InRange

variable {c : Channel}

/-- A channel at rest. -/
theorem rest (pin : Nat) : InRange { pin } := ⟨Nat.zero_le _, Nat.zero_le _, Iff.rfl⟩

theorem step (h : c.InRange) : c.step.InRange where
  target_le := h.target_le
  position_le := by
    have h_le := c.nextPosition_le_max
    have h_position := h.position_le
    have h_target := h.target_le
    rw [step_position]
    -- the next position is at most the larger of position and target
    omega
  position_eq_zero_iff := by
    rw [step_position, step_target]
    constructor
    · -- a step that ends at zero has come to the least value a pulse can have
      intro h_next
      have h_ge := c.min_le_nextPosition
      have h_zero := h.position_eq_zero_iff
      omega
    · -- a channel that is off stays where it is
      intro h_target
      have h_position := h.position_eq_zero_iff.2 h_target
      rw [nextPosition_of_eq (h_position.trans h_target.symm), h_target]

theorem aim {ticks : Nat} (h : c.InRange) (h_ticks : ticks ≤ maxTargetTicks) :
    (c.aim ticks).InRange := by
  unfold Channel.aim
  split
  · -- a jump puts the position on the target, so both are zero or neither is
    exact ⟨h_ticks, h_ticks, Iff.rfl⟩
  · -- neither the position nor the new target is zero
    rename_i h_none
    refine ⟨h_ticks, h.position_le, ⟨fun h_zero => ?_, fun h_zero => ?_⟩⟩
    · exact absurd (.inr (.inl h_zero)) h_none
    · exact absurd (.inr (.inr h_zero)) h_none

theorem limit (h : c.InRange) (speed : Nat) : InRange { c with speed } :=
  ⟨h.target_le, h.position_le, h.position_eq_zero_iff⟩

end Channel.InRange

namespace ChannelTable

theorem getElem_step (t : ChannelTable) {n : Nat} (h : n < maxServos) :
    t.step.slots[n] = if n < t.count then t.slots[n].step else t.slots[n] := by
  simp [step]

theorem getElem_modify (t : ChannelTable) {n m : Nat} (f : Channel → Channel) (h : m < maxServos) :
    (t.modify n f).slots[m] = if n = m ∧ n < t.count then f t.slots[m] else t.slots[m] := by
  unfold modify
  by_cases h_eq : n = m
  · subst h_eq
    -- the channel itself is replaced where it is configured
    by_cases h_count : n < t.count <;> simp [h, h_count]
  · by_cases h_n : n < maxServos
    · by_cases h_count : n < t.count <;> simp [h_n, h_count, h_eq]
    · -- a number that is no slot changes nothing
      simp [h_n, h_eq]

theorem getElem_assign (pins : List Nat) {n : Nat} (h : n < maxServos) :
    (assign pins).slots[n] = { pin := pins[n]?.getD 0 } := by
  simp [assign]

/-- A table whose channels are on distinct eligible pins and in range, and that is empty past them.
-/
structure Sound (eligible : List Nat) (t : ChannelTable) : Prop where
  count_le : t.count ≤ maxServos
  pins_nodup : (t.active.map Channel.pin).Nodup
  pins_eligible : ∀ pin ∈ t.active.map Channel.pin, pin ∈ eligible
  in_range : ∀ n (h : n < maxServos), t.slots[n].InRange
  empty : ∀ n (h : n < maxServos), t.count ≤ n → t.slots[n] = {}

namespace Sound

variable {eligible : List Nat} {t : ChannelTable}

theorem new (eligible : List Nat) : Sound eligible {} where
  count_le := Nat.zero_le _
  pins_nodup := .nil
  pins_eligible := nofun
  in_range n h := by
    rw [Vector.getElem_replicate]
    exact .rest 0
  empty n h _ := Vector.getElem_replicate h

theorem inRange_of_get? {n : Nat} {c : Channel} (h : t.Sound eligible) (h_c : t.get? n = some c) :
    c.InRange := by
  unfold get? at h_c
  split at h_c
  · obtain ⟨hn, rfl⟩ := Vector.getElem?_eq_some_iff.1 h_c
    exact h.in_range n hn
  · cases h_c

theorem step (h : t.Sound eligible) : t.step.Sound eligible where
  count_le := h.count_le
  pins_nodup := t.map_pin_step.symm ▸ h.pins_nodup
  pins_eligible := t.map_pin_step.symm ▸ h.pins_eligible
  in_range n hn := by
    -- a step moves the configured slots and leaves the others
    rw [getElem_step t hn]
    split
    · exact (h.in_range n hn).step
    · exact h.in_range n hn
  empty n hn h_past := by
    have h_not : ¬n < t.count := Nat.not_lt_of_le h_past
    rw [getElem_step t hn, if_neg h_not]
    exact h.empty n hn h_past

/-- A write that keeps the pin and the range of a channel. -/
theorem modify {f : Channel → Channel} (h : t.Sound eligible) (n : Nat)
    (h_pin : ∀ c, (f c).pin = c.pin) (h_range : ∀ c, c.InRange → (f c).InRange) :
    (t.modify n f).Sound eligible where
  count_le := (t.modify_count n f).symm ▸ h.count_le
  pins_nodup := (map_pin_modify h_pin).symm ▸ h.pins_nodup
  pins_eligible := (map_pin_modify h_pin).symm ▸ h.pins_eligible
  in_range m hm := by
    rw [getElem_modify t f hm]
    split
    · exact h_range _ (h.in_range m hm)
    · exact h.in_range m hm
  empty m hm h_past := by
    rw [modify_count] at h_past
    rw [getElem_modify t f hm, if_neg fun h_and => ?_]
    · exact h.empty m hm h_past
    · omega

theorem assign {pins : List Nat} (h : checkPins eligible pins = .ok ()) :
    (assign pins).Sound eligible := by
  obtain ⟨h_length, h_nodup, h_eligible⟩ := Engine.checkPins_ok h
  refine ⟨Nat.min_le_right _ _, ?_, ?_, fun n hn => ?_, fun n hn h_past => ?_⟩
  · rwa [map_pin_assign h_length]
  · rwa [map_pin_assign h_length]
  · rw [getElem_assign pins hn]
    exact .rest _
  · -- past the list there is no pin, and the slot is the empty one
    change min pins.length maxServos ≤ n at h_past
    rw [getElem_assign pins hn, List.getElem?_eq_none (by omega)]
    rfl

/-- A sound table is known by its configured channels. -/
theorem eq_of_active {t' : ChannelTable} (h : t.Sound eligible) (h' : t'.Sound eligible)
    (h_active : t.active = t'.active) : t = t' := by
  -- a sound table has as many active slots as it counts
  have h_length {t : ChannelTable} (h : t.Sound eligible) : t.active.length = t.count := by
    rw [active, List.length_take, Vector.length_toList]
    exact Nat.min_eq_left h.count_le
  have h_count : t.count = t'.count := (h_length h).symm.trans (h_active ▸ h_length h')
  have h_slots : t.slots = t'.slots := by
    ext n hn : 1
    -- past the count both slots are empty, and below it they are the active ones
    by_cases h_past : t.count ≤ n
    · rw [h.empty n hn h_past, h'.empty n hn (h_count ▸ h_past)]
    · have h_get {t : ChannelTable} (h_n : n < t.count) : t.active[n]? = some t.slots[n] := by
        rw [getElem?_active, get?, if_pos h_n, Vector.getElem?_eq_getElem hn]
      have h_n : n < t.count := Nat.lt_of_not_le h_past
      exact Option.some.inj ((h_get h_n).symm.trans (h_active ▸ h_get (h_count ▸ h_n)))
  cases t
  cases t'
  cases h_count
  cases h_slots
  rfl

end Sound

end ChannelTable

namespace Panel

variable {t t' : Panel}

/-- Whatever happens to a panel keeps its table sound. -/
theorem Step.sound (h : Step t t') (h_sound : t.table.Sound t.eligible) :
    t'.table.Sound t'.eligible := by
  cases h with
  | advance =>
    -- a period moves the positions, a command replaces one slot
    exact h_sound.step
  | count => exact h_sound
  | @retarget servo ticks h_ticks =>
    exact .modify (f := (·.aim ticks)) h_sound servo (fun _ => rfl) fun _ h_c => h_c.aim h_ticks
  | @limit servo speed =>
    exact .modify (f := ({ · with speed })) h_sound servo (fun _ => rfl)
      fun _ h_c => h_c.limit speed
  | relist h_pins =>
    -- the new list has been checked, and the last three steps leave the table alone
    exact .assign h_pins
  | look => exact h_sound
  | launch => exact h_sound
  | shutDown => exact h_sound

theorem Steps.sound (h : Steps t t') (h_sound : t.table.Sound t.eligible) :
    t'.table.Sound t'.eligible := by
  induction h with
  | refl => exact h_sound
  | tail _ h_step ih => exact h_step.sound ih

end Panel

namespace Engine

/-- **Sound tables.** In every state of a run of a new engine on any board of which the eligible
pins are fixed, the table is sound: at most six channels on distinct eligible pins, no width beyond
the largest target, position and target zero together, and zeros past the configured channels. -/
theorem channel_table_sound {β : Type} [Board β] [FixedPins β] {p : Profile} {board : β}
    {config : Config} {e : Engine β} (h : Events p { board, config } e) :
    e.table.Sound (Board.eligible e.board) :=
  Panel.Steps.sound h.panel_steps (.new _)

/-- A run with targets beyond the largest one, given in either unit, a speed, a new list while a
pulse is in flight, and a servo number that is not configured. -/
def mixedRun : Option (Engine (Bench PinRecorder)) :=
  replay? .release
    [.start (some [2, 3]), .command (.targetUs 0 65535), .command (.speed 0 1000),
      .command (.targetTicks 1 65535), .advance 65536, .interrupt, .command (.targetTicks 0 30000),
      .advance 65536, .interrupt, .advance 65536, .interrupt, .command (.targetTicks 7 100),
      .start (some [2, 2]), .start none]
    (freshRecorded { wrapsPerPeriod := 1 } 0 0)

theorem isSome_mixedRun : mixedRun.isSome = true := by decide +kernel

theorem channel_table_sound_mixedRun :
    (mixedRun.get isSome_mixedRun).table.Sound PinRecorder.eligiblePins ∧
      (mixedRun.get isSome_mixedRun).table.active =
        [{ pin := 2, target := 30000, position := 59000, speed := 1000 },
          { pin := 3, target := 60000, position := 60000 }] := by
  have h_run := events_of_replay? (Option.some_get isSome_mixedRun).symm
  exact ⟨channel_table_sound h_run, by decide +kernel⟩

end Engine

end ServoPulse
