import ServoPulse.Proofs.Levels
import ServoPulse.Proofs.Passing
import ServoPulse.Proofs.Tracking
import ServoPulse.Stm32.Chip

/-!
# The chip tracks the simulated board

A chip **follows** a simulated board without lag (`Chip.Follows`) when its outputs show the levels
of the recorded pins and its control registers show whether the timer runs and for which value it
is armed. That much survives everything that starts and stops ask of both boards
(`Follows.callsTrack`).

The counter and the flags are not among it: time passes on the simulated board alone, so that the
registers that show them are only good while an interrupt is served, right after they were set
(`Chip.mirror`). Then the counter agrees as well (`Chip.Serves`), and the falls of both engines
track each other (`Serves.fallsTrack`).

Two things set the chip apart. It drives every eligible pin high when it is asked to, where a
recorded pin has to be an output first. And it lowers a flag by writing ones to all the others, so
that on plain memory the compare flag reads as raised once an overflow was taken
(`take_flags_mirror`). An interrupt that finds the overflow flag looks at the falls in any case, so
this does no harm (`exists_interrupt_of_follows`).
-/

namespace ServoPulse

/-! ### Outputs -/

namespace Gpio

variable {g : Gpio} {m : Memory} {pin slot base address : Nat} {level : Bool}

theorem locate?_eq_some_iff :
    g.locate? pin = some (slot, base) ↔
      g.slot? pin = some slot ∧ blockBase? (pin / 16) = some base := by
  unfold locate?
  cases g.slot? pin with
  | none => simp
  | some s => cases blockBase? (pin / 16) <;> simp

/-- The registers of the blocks lie above those of the timer. -/
theorem le_of_blockBase? {block : Nat} (h : blockBase? block = some base) : 0x48000000 ≤ base := by
  unfold blockBase? at h
  split at h
  · obtain rfl := Option.some.inj h
    decide
  · obtain rfl := Option.some.inj h
    decide
  · obtain rfl := Option.some.inj h
    decide
  · -- no other port has registers
    cases h

theorem read_drive (h : address < 0x48000000) :
    (g.drive pin level m).2.read address = m.read address := by
  unfold drive
  cases h_locate : g.locate? pin with
  | none =>
    -- a pin without a place is not driven
    rfl
  | some place =>
    have h_base := le_of_blockBase? (locate?_eq_some_iff.1 h_locate).2
    -- the set and reset word of the port lies in its own block
    have h_ne : bsrr place.2 ≠ address := by
      unfold bsrr
      omega
    exact (Memory.read_write m _ _ _).trans (if_neg h_ne)

theorem read_configureOutput (h : address < 0x48000000) :
    (g.configureOutput pin m).read address = m.read address := by
  unfold configureOutput
  cases h_locate : g.locate? pin with
  | none => rfl
  | some place =>
    have h_base := le_of_blockBase? (locate?_eq_some_iff.1 h_locate).2
    -- two registers of the port are written, and both lie in its block
    have h_bsrr : bsrr place.2 ≠ address := by
      unfold bsrr
      omega
    have h_moder : moder place.2 ≠ address := by
      unfold moder
      omega
    simp [h_bsrr, h_moder]

theorem ids_drive : (g.drive pin level m).1.ids = g.ids := by
  unfold drive
  split <;> rfl

/-- A pin is found in a slot that holds it, so no two pins share a slot. -/
theorem slot?_inj {other : Nat} (h : g.slot? pin = some slot)
    (h_other : g.slot? other = some slot) : other = pin := by
  obtain ⟨_, h_pin, -⟩ := List.idxOf?_eq_some_iff.1 h
  obtain ⟨_, h_other, -⟩ := List.idxOf?_eq_some_iff.1 h_other
  exact h_other.symm.trans h_pin

/-- An eligible pin of a driven block takes the level, and the others keep theirs. -/
theorem isHigh_drive (h_pin : pin ∈ g.ids.toList) (h_block : blockBase? (pin / 16) = some base)
    (other : Nat) :
    (g.drive pin level m).1.isHigh other = if other = pin then level else g.isHigh other := by
  -- a pin of the list has a slot, and with its block the registers it is driven by
  obtain ⟨slot, h_slot⟩ : ∃ slot, g.slot? pin = some slot :=
    Option.ne_none_iff_exists'.1 (mt List.idxOf?_eq_none_iff.1 (not_not_intro h_pin))
  have h_lt : slot < 6 := by
    obtain ⟨h_lt, -⟩ := List.idxOf?_eq_some_iff.1 h_slot
    simpa using h_lt
  have h_drive : (g.drive pin level m).1 =
      { g with levels := g.levels.setIfInBounds slot level } := by
    rw [drive, locate?_eq_some_iff.2 ⟨h_slot, h_block⟩]
  -- the slots are found in the list of pins, which driving does not change
  have h_same : (g.drive pin level m).1.slot? other = g.slot? other := by
    rw [slot?, ids_drive, slot?]
  rw [isHigh, h_same, h_drive, isHigh]
  by_cases h_eq : other = pin
  · rw [if_pos h_eq, h_eq, h_slot]
    simp [h_lt]
  · rw [if_neg h_eq]
    cases h_other : g.slot? other with
    | none => rfl
    | some place =>
      -- another pin of the list has another slot, and the level there stays
      have h_ne : slot ≠ place := by
        rintro rfl
        exact h_eq (slot?_inj h_slot h_other)
      simp [h_ne]

/-- A pin that is not eligible is left alone. -/
theorem drive_of_not_mem (h_pin : pin ∉ g.ids.toList) : g.drive pin level m = (g, m) := by
  have h_slot : g.slot? pin = none := List.idxOf?_eq_none_iff.2 h_pin
  rw [drive, locate?, h_slot]
  rfl

end Gpio

/-! ### The timer -/

namespace Tim3

variable (m : Memory)

theorem getLsbD_setBit_self {i : Nat} (h : i < 32) (w : Word) (b : Bool) :
    (w.setBit i b).getLsbD i = b := by
  rw [Word.getLsbD_setBit, if_pos ⟨rfl, h⟩]

/-- A started timer runs, with the compare channel disarmed. -/
theorem read_start (prescaler : BitVec 16) :
    ((start prescaler m).read cr1).getLsbD cen = true ∧
      ((start prescaler m).read dier).getLsbD cc1 = false := by
  have h_dier : (start prescaler m).read dier = Word.setBit 0 update true := by
    simp [start, cr1, dier]
  refine ⟨?_, h_dier ▸ rfl⟩
  rw [start, Memory.read_modify, if_pos rfl, getLsbD_setBit_self (by decide)]

theorem read_stop :
    ((stop m).read cr1).getLsbD cen = false ∧ ((stop m).read dier).getLsbD cc1 = false := by
  have h_cr1 : (stop m).read cr1 = (m.read cr1).setBit cen false := by
    simp [stop, cr1, dier, sr]
  have h_dier : (stop m).read dier = 0 := by
    simp [stop, dier, sr]
  exact ⟨h_cr1 ▸ getLsbD_setBit_self (by decide) _ _, h_dier ▸ rfl⟩

/-- Arming leaves the counter and the control register alone. -/
theorem read_arm (value : Count) :
    (arm value m).read cr1 = m.read cr1 ∧ (arm value m).read cnt = m.read cnt ∧
      ((arm value m).read dier).getLsbD cc1 = true ∧
      (arm value m).read ccr1 = BitVec.ofNat 32 value := by
  -- the enable bit is set last, so the value is written when the flag can rise
  have h_dier : (arm value m).read dier = (m.read dier).setBit cc1 true := by
    simp [arm, dier, ccr1]
  refine ⟨?_, ?_, h_dier ▸ getLsbD_setBit_self (by decide) _ _, ?_⟩
  · simp [arm, cr1, dier, ccr1]
  · simp [arm, cnt, dier, ccr1]
  · simp [arm, dier, ccr1]

theorem read_disarm :
    (disarm m).read cr1 = m.read cr1 ∧ (disarm m).read cnt = m.read cnt ∧
      ((disarm m).read dier).getLsbD cc1 = false := by
  have h_dier : (disarm m).read dier = (m.read dier).setBit cc1 false := by
    simp [disarm, lowerFlag, dier, sr]
  refine ⟨?_, ?_, h_dier ▸ getLsbD_setBit_self (by decide) _ _⟩
  · simp [disarm, lowerFlag, cr1, dier, sr]
  · simp [disarm, lowerFlag, cnt, dier, sr]

/-- Taking a flag touches no register but the one that holds the flags. -/
theorem read_takeFlag (flag : Nat) {address : Nat} (h : address ≠ sr) :
    (takeFlag flag m).2.read address = m.read address := by
  unfold takeFlag
  split
  · exact (Memory.read_write m _ _ _).trans (if_neg (Ne.symm h))
  · rfl

end Tim3

/-! ### Recorded pins -/

/-- What a request does to the levels. Only a rise needs an output. -/
theorem PinRecorder.isHigh_of_run_drive {p : Profile} {level : Bool} {now pin : Nat}
    {r r' : PinRecorder} (h_out : level = true → pin ∈ eligiblePins → r.isOutput pin = true)
    (h : (PinBank.drive level now pin).run p r = .ok () r') (other : Nat) :
    r'.isHigh other = if other = pin ∧ pin ∈ eligiblePins then level else r.isHigh other := by
  by_cases h_pin : pin ∈ eligiblePins
  swap
  · -- a pin that is not eligible is refused, and no level changes
    rw [eq_of_run_drive h_pin h, if_neg fun h_and => h_pin h_and.2]
  simp only [h_pin, and_true]
  cases h_output : r.isOutput pin with
  | true =>
    -- an output takes the level it is given
    have h_drivable : r.Drivable pin := ⟨h_pin, h_output⟩
    exact LawfulPinBank.isHigh_drive h_drivable h other
  | false =>
    -- a fall of a pin that is no output is refused, and the pin is low anyway
    have h_level : level = false :=
      Bool.eq_false_iff.2 fun h_true =>
        Bool.false_ne_true (h_output.symm.trans (h_out h_true h_pin))
    have h_state : r.state pin = .unconfigured := by simpa [isOutput] using h_output
    -- either the pin was refused and is as it was, or it is an output, which the case excludes
    rcases run_drive_eq_ok h with ⟨h_pins, -⟩ | ⟨⟨-, h_true⟩, -⟩
    · rw [isHigh_congr h_pins, h_level]
      split
      · rename_i h_eq
        rw [h_eq, isHigh, h_state]
      · rfl
    · exact absurd (h_output.symm.trans h_true) Bool.false_ne_true

theorem PinRecorder.isOutput_of_run_drive {p : Profile} {level : Bool} {now pin : Nat}
    {r r' : PinRecorder} (h : (PinBank.drive level now pin).run p r = .ok () r') (other : Nat) :
    r'.isOutput other = r.isOutput other := by
  rcases run_drive_eq_ok h with ⟨h_pins, -⟩ | ⟨⟨h_pin, h_out⟩, -, h_pins⟩
  · exact isOutput_congr h_pins other
  · rw [isOutput_congr h_pins, isOutput_setState h_pin]
    split
    · rename_i h_eq
      -- both levels of the driven pin are levels of an output
      rw [h_eq, h_out]
      cases level <;> rfl
    · rfl

/-! ### The boards -/

/-- The counter as it reads now. -/
def Clock.reading (c : Clock) : Count := if c.running then .ofNat (c.now - c.origin) else .ofNat 0

theorem Clock.eq_reading_of_run {c : Clock} {n : Count} (h : c.counter.run .debug = .ok n) :
    n = c.reading := by
  unfold reading
  split
  · rename_i h_run
    exact ((run_counter_debug_iff h_run).1 h).2.symm
  · rename_i h_run
    rw [counter, if_neg h_run] at h
    exact (Except.ok.inj h).symm

namespace Chip

variable {p : Profile} {b b' : Bench PinRecorder} {c : Chip} {ready : Nat → Prop}

/-- The chip shows what the simulated board does, but for its counter and its flags. -/
structure Follows (b : Bench PinRecorder) (c : Chip) : Prop where
  lag_eq : b.lag = 0
  ids_eq : c.gpio.ids.toList = PinRecorder.eligiblePins
  level_eq : ∀ pin, c.gpio.isHigh pin = b.pins.isHigh pin
  running_eq : (c.memory.read Tim3.cr1).getLsbD Tim3.cen = b.clock.running
  armed_eq : (c.memory.read Tim3.dier).getLsbD Tim3.cc1 = b.clock.compare.isSome
  value_eq : ∀ value ∈ b.clock.compare, c.memory.read Tim3.ccr1 = BitVec.ofNat 32 value

namespace Follows

/-- The counter of the chip is not looked at, and the simulated time may be any. -/
theorem of_same (h : Follows b c) {d : Chip} (h_lag : b'.lag = b.lag) (h_pins : b'.pins = b.pins)
    (h_running : b'.clock.running = b.clock.running)
    (h_compare : b'.clock.compare = b.clock.compare) (h_gpio : d.gpio = c.gpio)
    (h_cr1 : d.memory.read Tim3.cr1 = c.memory.read Tim3.cr1)
    (h_dier : d.memory.read Tim3.dier = c.memory.read Tim3.dier)
    (h_ccr1 : d.memory.read Tim3.ccr1 = c.memory.read Tim3.ccr1) : Follows b' d where
  lag_eq := h_lag.trans h.lag_eq
  ids_eq := by
    rw [h_gpio]
    exact h.ids_eq
  level_eq := by
    rw [h_gpio, h_pins]
    exact h.level_eq
  running_eq := by
    rw [h_cr1, h_running]
    exact h.running_eq
  armed_eq := by
    rw [h_dier, h_compare]
    exact h.armed_eq
  value_eq := by
    rw [h_ccr1, h_compare]
    exact h.value_eq

/-- Every eligible pin is in block A. -/
theorem blockBase?_eq {pin : Nat} (h : pin ∈ PinRecorder.eligiblePins) :
    Gpio.blockBase? (pin / 16) = some 0x48000000 := by
  have h_block : ∀ pin ∈ PinRecorder.eligiblePins, pin / 16 = 0 := by decide
  rw [h_block pin h]
  rfl

/-- Pins that are driven with the same effect on their levels. -/
theorem drive (h : Follows b c) {pin : Nat} {level : Bool} {pins : PinRecorder}
    (h_levels : ∀ other, pins.isHigh other =
      if other = pin ∧ pin ∈ PinRecorder.eligiblePins then level else b.pins.isHigh other) :
    Follows { b with pins } (c.drive pin level) := by
  have h_low : Tim3.cr1 < 0x48000000 ∧ Tim3.dier < 0x48000000 ∧ Tim3.ccr1 < 0x48000000 := by decide
  -- the outputs change by the one pin; the registers of the timer lie below those of the ports
  refine ⟨h.lag_eq, ?_, fun other => ?_, ?_, ?_, ?_⟩
  · exact (congrArg Vector.toList Gpio.ids_drive).trans h.ids_eq
  · change (c.gpio.drive pin level c.memory).1.isHigh other = pins.isHigh other
    rw [h_levels]
    by_cases h_pin : pin ∈ PinRecorder.eligiblePins
    · rw [Gpio.isHigh_drive (h.ids_eq ▸ h_pin) (blockBase?_eq h_pin), h.level_eq]
      simp only [h_pin, and_true]
    · -- the chip has no slot for such a pin and does nothing, as the recorder does
      rw [Gpio.drive_of_not_mem (h.ids_eq ▸ h_pin), if_neg fun h_and => h_pin h_and.2]
      exact h.level_eq other
  · exact (congrArg (·.getLsbD Tim3.cen) (Gpio.read_drive h_low.1)).trans h.running_eq
  · exact (congrArg (·.getLsbD Tim3.cc1) (Gpio.read_drive h_low.2.1)).trans h.armed_eq
  · exact fun value h_value => (Gpio.read_drive h_low.2.2).trans (h.value_eq value h_value)

theorem startTimer {Q : Profile → Prop} :
    Action.Tracks Follows p Q (Board.startTimer : Action (Bench PinRecorder) Unit)
      (Board.startTimer : Action Chip Unit) := by
  rintro b c h ⟨⟩ b' h_run
  obtain ⟨clock, h_clock, rfl⟩ := Action.run_zoom_eq_ok_iff.1 h_run
  rw [Clock.start, Action.run_modify_bind, Action.run_get_bind] at h_clock
  obtain ⟨starts, -, h_clock⟩ := Action.run_liftM_bind_eq_ok_iff.1 h_clock
  obtain rfl := Action.run_modify_eq_ok_iff.1 h_clock
  obtain ⟨h_running, h_armed⟩ := Tim3.read_start c.memory c.prescaler
  -- the start disarms on both sides, so that no armed value has to agree
  exact ⟨_, fun q _ => rfl, h.lag_eq, h.ids_eq, h.level_eq, h_running, h_armed,
    fun value h_value => absurd h_value (Option.not_mem_none value)⟩

theorem stopTimer (h : Follows b c) : Follows (Board.stopTimer b) (Board.stopTimer c) := by
  obtain ⟨h_running, h_armed⟩ := Tim3.read_stop c.memory
  exact ⟨h.lag_eq, h.ids_eq, h.level_eq, h_running, h_armed,
    fun value h_value => absurd h_value (Option.not_mem_none value)⟩

/-- Making a low pin an output changes no level on either board. -/
theorem configureOutput (h : Follows b c) (pin : Nat) (h_low : Board.isHigh b pin = false) :
    Follows (Board.configureOutput pin b) (Board.configureOutput pin c) := by
  have h_read {address : Nat} (h_lt : address < 0x48000000) :
      (c.gpio.configureOutput pin c.memory).read address = c.memory.read address :=
    Gpio.read_configureOutput h_lt
  refine ⟨h.lag_eq, h.ids_eq, fun other => ?_, ?_, ?_, ?_⟩
  · -- the pin becomes a low output on the bench, and it was low on the chip already
    refine (h.level_eq other).trans ?_
    change b.pins.isHigh pin = false at h_low
    change _ = (if pin ∈ PinRecorder.eligiblePins then b.pins.setState pin .low
      else b.pins).isHigh other
    split
    · rename_i h_pin
      rw [PinRecorder.isHigh_setState h_pin]
      split
      · rename_i h_eq
        rw [h_eq, h_low]
      · rfl
    · rfl
  · -- what is written lies in the block of the pin, above the registers of the timer
    exact (congrArg (·.getLsbD Tim3.cen) (h_read (by decide))).trans h.running_eq
  · exact (congrArg (·.getLsbD Tim3.cc1) (h_read (by decide))).trans h.armed_eq
  · exact fun value h_value => (h_read (by decide)).trans (h.value_eq value h_value)

theorem setLow {Q : Profile → Prop} (pin : Nat) :
    Action.Tracks Follows p Q (Board.setLow pin : Action (Bench PinRecorder) Unit)
      (Board.setLow pin : Action Chip Unit) := by
  rintro b c h ⟨⟩ b' h_run
  rw [show (Board.setLow pin : Action (Bench PinRecorder) Unit) =
    (get >>= fun b => Bench.onPins (PinBank.setLow b.clock.now pin)) from rfl,
    Action.run_get_bind] at h_run
  obtain ⟨pins, h_pins, rfl⟩ := Action.run_zoom_eq_ok_iff.1 h_run
  change (PinBank.drive false b.clock.now pin).run p b.pins = .ok () pins at h_pins
  -- a fall needs no output: where the recorder refuses it, the pin is low in any case
  exact ⟨_, fun q _ => rfl, h.drive (PinRecorder.isHigh_of_run_drive nofun h_pins)⟩

/-- Starts and stops ask the same of both boards. -/
theorem callsTrack {Q : Profile → Prop} : CallsTrack Follows p Q where
  startTimer := startTimer
  stopTimer := stopTimer
  eligible h := h.ids_eq
  configureOutput := configureOutput
  setLow := setLow
  isHigh h := h.level_eq

end Follows

/-- A chip that follows the simulated board and shows its counter as well, with the pins that are
`ready` made outputs. -/
structure Serves (ready : Nat → Prop) (b : Bench PinRecorder) (c : Chip) : Prop where
  follows : Follows b c
  counter_eq : Tim3.counter c.memory = b.clock.reading
  output : ∀ pin, ready pin → b.pins.isOutput pin = true

namespace Serves

theorem counter {Q : Profile → Prop} (h : Serves ready b c) :
    Checked.Tracks .debug Q (Board.counter b) (Board.counter c) := by
  intro n h_run q _
  rw [Clock.eq_reading_of_run h_run, ← h.counter_eq]
  rfl

/-- Without lag no time passes while the compare channel is armed. -/
theorem armCompare {Q : Profile → Prop} (value : Count) :
    Action.Tracks (Serves ready) .debug Q (Board.armCompare value : Action (Bench PinRecorder) Unit)
      (Board.armCompare value : Action Chip Unit) := by
  rintro b c h ⟨⟩ b' h_run
  change (Bench.armCompare value).run .debug b = .ok () b' at h_run
  rw [Bench.armCompare, Action.run_modify_bind, Action.run_get_bind] at h_run
  obtain ⟨limit, h_limit, h_pass⟩ := Action.run_liftM_bind_eq_ok_iff.1 h_run
  obtain ⟨clock, h_clock, rfl⟩ := Action.run_zoom_eq_ok_iff.1 h_pass
  obtain ⟨-, rfl⟩ := Checked.run_add_debug_iff.1 h_limit
  -- without lag the time of the arm does not advance the clock
  have h_lag : b.clock.now + b.lag ≤ b.clock.now := by
    rw [h.follows.lag_eq]
    exact Nat.le_refl _
  obtain rfl := Clock.passUntil_eq_of_le h_clock h_lag
  obtain ⟨h_cr1, h_cnt, h_dier, h_ccr1⟩ := Tim3.read_arm c.memory value
  -- armed for the same value on both sides, and started or not as before
  have h_follows : Follows { b with clock := b.clock.arm value } (c.onTimer (Tim3.arm value)) := by
    refine ⟨h.follows.lag_eq, h.follows.ids_eq, h.follows.level_eq, ?_, h_dier, ?_⟩
    · exact (congrArg (·.getLsbD Tim3.cen) h_cr1).trans h.follows.running_eq
    · rintro _ ⟨⟩
      exact h_ccr1
  -- arming writes neither the counter nor an output, so the readings still agree
  refine ⟨_, fun q _ => rfl, h_follows, ?_, h.output⟩
  exact (congrArg (fun w : Word => Count.ofNat w.toNat) h_cnt).trans h.counter_eq

theorem disarmCompare (h : Serves ready b c) :
    Serves ready (Board.disarmCompare b) (Board.disarmCompare c) := by
  obtain ⟨h_cr1, h_cnt, h_dier⟩ := Tim3.read_disarm c.memory
  refine ⟨⟨h.follows.lag_eq, h.follows.ids_eq, h.follows.level_eq, ?_, h_dier,
    fun value h_value => absurd h_value (Option.not_mem_none value)⟩, ?_, h.output⟩
  · exact (congrArg (·.getLsbD Tim3.cen) h_cr1).trans h.follows.running_eq
  · exact (congrArg (fun w : Word => Count.ofNat w.toNat) h_cnt).trans h.counter_eq

/-- Driving a pin takes no time on either board, and makes and unmakes no outputs. -/
theorem drive (h : Serves ready b c) {pin : Nat} {level : Bool} {pins : PinRecorder}
    (h_out : level = true → b.pins.isOutput pin = true)
    (h_pins : (PinBank.drive level b.clock.now pin).run p b.pins = .ok () pins) :
    Serves ready { b with pins } (c.drive pin level) := by
  -- the outputs are the rises and falls of `drive`, the counter is not written
  refine ⟨h.follows.drive ?_, ?_, fun other h_ready => ?_⟩
  · exact PinRecorder.isHigh_of_run_drive (fun h_level _ => h_out h_level) h_pins
  · exact (congrArg (fun w : Word => Count.ofNat w.toNat) (Gpio.read_drive (by decide))).trans
      h.counter_eq
  · rw [PinRecorder.isOutput_of_run_drive h_pins]
    exact h.output other h_ready

theorem setLow {Q : Profile → Prop} (pin : Nat) :
    Action.Tracks (Serves ready) p Q (Board.setLow pin : Action (Bench PinRecorder) Unit)
      (Board.setLow pin : Action Chip Unit) := by
  rintro b c h ⟨⟩ b' h_run
  change Action.run (get >>= fun b => Bench.onPins (PinBank.setLow b.clock.now pin)) p b = _
    at h_run
  rw [Action.run_get_bind] at h_run
  obtain ⟨pins, h_pins, rfl⟩ := Action.run_zoom_eq_ok_iff.1 h_run
  change (PinBank.drive false b.clock.now pin).run p b.pins = .ok () pins at h_pins
  exact ⟨_, fun q _ => rfl, h.drive nofun h_pins⟩

/-- A pin that was made an output goes high on both boards. -/
theorem setHigh {Q : Profile → Prop} (pin : Nat) (h_ready : ready pin) :
    Action.Tracks (Serves ready) p Q (Board.setHigh pin : Action (Bench PinRecorder) Unit)
      (Board.setHigh pin : Action Chip Unit) := by
  rintro b c h ⟨⟩ b' h_run
  change Action.run (get >>= fun b => Bench.onPins (PinBank.setHigh b.clock.now pin)) p b = _
    at h_run
  rw [Action.run_get_bind] at h_run
  obtain ⟨pins, h_pins, rfl⟩ := Action.run_zoom_eq_ok_iff.1 h_run
  change (PinBank.drive true b.clock.now pin).run p b.pins = .ok () pins at h_pins
  exact ⟨_, fun q _ => rfl, h.drive (fun _ => h.output pin h_ready) h_pins⟩

/-- While an interrupt is served, the falls ask the same of both boards. -/
theorem fallsTrack {Q : Profile → Prop} : FallsTrack (Serves ready) .debug Q where
  counter := counter
  armCompare := armCompare
  disarmCompare := disarmCompare
  setLow := setLow

end Serves

/-! ### The interrupt -/

/-- The chip with the registers of its timer showing what the simulated timer does, its counter
and its flags. -/
def mirror (clock : Clock) (c : Chip) : Chip :=
  c.onTimer fun m =>
    m |>.write Tim3.cnt (BitVec.ofNat 32 clock.reading)
      |>.modify Tim3.sr fun w =>
        (w.setBit Tim3.update clock.overflowPending).setBit Tim3.cc1 clock.comparePending

/-- A chip that follows the simulated board is ready to serve the interrupt like it, once its
registers are set. -/
theorem Follows.serves_mirror (h : Follows b c)
    (h_ready : ∀ pin, ready pin → b.pins.isOutput pin = true) :
    Serves ready b (c.mirror b.clock) := by
  -- the mirrored flags and counter are the only registers that change
  refine ⟨h.of_same rfl rfl rfl rfl rfl ?_ ?_ ?_, ?_, h_ready⟩
  · simp [mirror, onTimer, Tim3.cr1, Tim3.cnt, Tim3.sr]
  · simp [mirror, onTimer, Tim3.dier, Tim3.cnt, Tim3.sr]
  · simp [mirror, onTimer, Tim3.ccr1, Tim3.cnt, Tim3.sr]
  · -- the counter register shows the reading, which fits into its sixteen bits
    have h_cnt : (c.mirror b.clock).memory.read Tim3.cnt = BitVec.ofNat 32 b.clock.reading := by
      simp [mirror, onTimer, Tim3.cnt, Tim3.sr]
    have h_lt : b.clock.reading.val < ticksPerWrap := b.clock.reading.isLt
    rw [Tim3.counter, h_cnt, BitVec.toNat_ofNat, Nat.mod_eq_of_lt (Nat.lt_trans h_lt (by decide))]
    exact Fin.ext (Nat.mod_eq_of_lt h_lt)

theorem takeFlag_fst (flag : Nat) (c : Chip) :
    (takeFlag flag c).1 = (c.memory.read Tim3.sr).getLsbD flag := by
  change (Tim3.takeFlag flag c.memory).1 = _
  unfold Tim3.takeFlag
  split
  · rename_i h_raised
    exact h_raised.symm
  · rename_i h_down
    exact (Bool.eq_false_iff.2 h_down).symm

/-- What an interrupt finds on the chip. Once the overflow flag was taken, the compare flag reads
as raised. -/
theorem take_flags_mirror (clock : Clock) (c : Chip) :
    (Board.takeOverflow (c.mirror clock)).1 = clock.overflowPending ∧
      (Board.takeCompare (Board.takeOverflow (c.mirror clock)).2).1 =
        (clock.overflowPending || clock.comparePending) := by
  -- the mirror sets both flags to those of the clock
  have h_sr : (c.mirror clock).memory.read Tim3.sr =
      ((c.memory.read Tim3.sr).setBit Tim3.update clock.overflowPending).setBit Tim3.cc1
        clock.comparePending := by
    simp [mirror, onTimer, Tim3.cnt, Tim3.sr]
  have h_update : ((c.mirror clock).memory.read Tim3.sr).getLsbD Tim3.update =
      clock.overflowPending := by
    rw [h_sr, Word.getLsbD_setBit, if_neg (by decide), Tim3.getLsbD_setBit_self (by decide)]
  -- the overflow flag is read first, the compare flag from what taking it has left
  refine ⟨(takeFlag_fst _ _).trans h_update, (takeFlag_fst _ _).trans ?_⟩
  change ((Tim3.takeFlag Tim3.update (c.mirror clock).memory).2.read Tim3.sr).getLsbD Tim3.cc1 = _
  rw [Tim3.takeFlag, h_update]
  cases clock.overflowPending with
  | true =>
    -- the word that lowers the one flag has a one in the place of the other
    change ((Memory.write _ Tim3.sr _).read Tim3.sr).getLsbD Tim3.cc1 = true
    rw [Memory.read_write, if_pos rfl]
    rfl
  | false =>
    -- nothing was written, so the flag is the mirrored one
    change ((c.mirror clock).memory.read Tim3.sr).getLsbD Tim3.cc1 = clock.comparePending
    rw [h_sr, Tim3.getLsbD_setBit_self (by decide)]

/-- Taking both flags changes no register that is followed. -/
theorem Serves.take_flags (h : Serves ready b c) :
    Serves ready (Board.takeCompare (Board.takeOverflow b).2).2
      (Board.takeCompare (Board.takeOverflow c).2).2 := by
  -- the flags are all that taking them writes
  have h_read {address : Nat} (h_ne : address ≠ Tim3.sr) :
      (Board.takeCompare (Board.takeOverflow c).2).2.memory.read address =
        c.memory.read address :=
    (Tim3.read_takeFlag _ _ h_ne).trans (Tim3.read_takeFlag _ _ h_ne)
  refine ⟨h.follows.of_same rfl rfl rfl rfl rfl ?_ ?_ ?_, ?_, h.output⟩
  · exact h_read (by decide)
  · exact h_read (by decide)
  · exact h_read (by decide)
  · exact (congrArg (fun w : Word => Count.ofNat w.toNat) (h_read (by decide))).trans h.counter_eq

end Chip

namespace Engine

/-- The chip of an engine with the registers of its timer set to what the simulated timer shows. -/
def mirror (clock : Clock) (t : Engine Chip) : Engine Chip :=
  { t with board := t.board.mirror clock }

theorem run_interrupt {β : Type} [Board β] (p : Profile) (e : Engine β) :
    interrupt.run p e = Action.run (do
      if e.phase ≠ .halted then
        if (Board.takeOverflow e.board).1 then turn
        if (Board.takeOverflow e.board).1 ||
          (Board.takeCompare (Board.takeOverflow e.board).2).1 then fallDue)
      p { e with board := (Board.takeCompare (Board.takeOverflow e.board).2).2 } := rfl

theorem onBoards_follows {ready : Nat → Prop} {e : Engine (Bench PinRecorder)} {t : Engine Chip}
    (h : OnBoards (Chip.Serves ready) e t) : OnBoards Chip.Follows e t := by
  obtain ⟨c, h_serves, rfl⟩ := h
  exact ⟨c, h_serves.follows, rfl⟩

/-- What follows the taking of the flags is the same, also if the chip reads the compare flag as
raised after an overflow. -/
theorem exists_serve_of_serves {ready : Nat → Prop} {e e' : Engine (Bench PinRecorder)}
    {t : Engine Chip} {overflow compare : Bool} (h : OnBoards (Chip.Serves ready) e t)
    (h_ready : ∀ c ∈ e.table.active, ready c.pin)
    (h_run : Action.run (do
      if e.phase ≠ .halted then
        if overflow then turn
        if overflow || compare then fallDue) .debug e = .ok () e') :
    ∃ t', (∀ q, Action.run (do
        if e.phase ≠ .halted then
          if overflow then turn
          if overflow || (overflow || compare) then fallDue) q t = .ok () t') ∧
      OnBoards Chip.Follows e' t' := by
  -- falls and turns track each other separately; the two are now run one after the other
  have h_falls : Action.Tracks (OnBoards (Chip.Serves ready)) .debug (fun _ => True)
      fallDue fallDue := Chip.Serves.fallsTrack.fallDue
  have h_turn : Action.Tracks
      (fun e t => OnBoards (Chip.Serves ready) e t ∧ ∀ c ∈ e.table.active, ready c.pin) .debug
      (fun _ => True) turn turn := Chip.Serves.fallsTrack.turn Chip.Serves.setHigh
  -- a halted engine serves nothing on either side
  by_cases h_halted : e.phase = .halted
  · rw [if_neg (not_not_intro h_halted)] at h_run ⊢
    obtain ⟨-, rfl⟩ := Action.run_pure_eq_ok_iff.1 h_run
    exact ⟨t, fun q => rfl, onBoards_follows h⟩
  rw [if_pos h_halted] at h_run ⊢
  cases overflow with
  | true =>
    -- the period turns first, and the falls are looked at after it
    obtain ⟨⟨⟩, e₁, h_first, h_last⟩ := Action.run_bind_eq_ok_iff.1 h_run
    obtain ⟨t₁, h_first', h₁, -⟩ := h_turn ⟨h, h_ready⟩ h_first
    obtain ⟨t₂, h_last', h₂⟩ := h_falls h₁ h_last
    refine ⟨t₂, fun q => ?_, onBoards_follows h₂⟩
    exact Action.run_bind_eq_ok_iff.2 ⟨⟨⟩, t₁, h_first' q trivial, h_last' q trivial⟩
  | false =>
    cases compare with
    | true =>
      -- the chip finds the flag that the bench found
      obtain ⟨t₁, h_first', h₁⟩ := h_falls h h_run
      exact ⟨t₁, fun q => h_first' q trivial, onBoards_follows h₁⟩
    | false =>
      -- nothing is due, and both engines are as they were
      obtain ⟨-, rfl⟩ := Action.run_pure_eq_ok_iff.1 h_run
      exact ⟨t, fun q => rfl, onBoards_follows h⟩

/-- **Interrupts.** An engine on a chip that follows serves the interrupt as the engine on the
simulated board does, when its registers were set before. -/
theorem exists_interrupt_of_follows {e e' : Engine (Bench PinRecorder)} {t : Engine Chip}
    (h : OnBoards Chip.Follows e t) (h_out : ∀ c ∈ e.table.active, e.pins.isOutput c.pin = true)
    (h_run : interrupt.run .debug e = .ok () e') :
    ∃ t', (∀ q, interrupt.run q (t.mirror e.clock) = .ok () t') ∧
      OnBoards Chip.Follows e' t' := by
  obtain ⟨c, h_follows, rfl⟩ := h
  have h_ready : ∀ pin, e.pins.isOutput pin = true → e.board.pins.isOutput pin = true :=
    fun _ h => h
  -- the flags are mirrored and then taken; what is served from there agrees
  have h_serves := (h_follows.serves_mirror h_ready).take_flags
  obtain ⟨h_overflow, h_compare⟩ := Chip.take_flags_mirror e.clock c
  generalize h_d : (Board.takeCompare (Board.takeOverflow (c.mirror e.clock)).2).2 = d at h_serves
  -- the chip runs the same program, with the flags it reads in place of those of the clock
  have h_chip (q : Profile) : interrupt.run q ((e.onto c).mirror e.clock) = Action.run (do
      if e.phase ≠ .halted then
        if e.clock.overflowPending then turn
        if e.clock.overflowPending || (e.clock.overflowPending || e.clock.comparePending) then
          fallDue) q (e.quiet.onto d) := by
    rw [← h_d, ← h_compare, ← h_overflow]
    exact run_interrupt q _
  simp only [h_chip]
  exact exists_serve_of_serves (e := e.quiet) ⟨d, h_serves, rfl⟩ h_out h_run

end Engine

end ServoPulse
