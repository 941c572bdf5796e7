import ServoPulse.Proofs.OwnRegisters
import ServoPulse.Proofs.PinCalls

/-!
# The levels of the ports

A `Wired` chip has its output pins attached: a port takes over what is written to its BSRR, bit `n`
sets pin `n` and bit `16 + n` resets it (`Wired.latch`). With six pins on driven blocks the outputs
are what a bank of outputs with the same pins answers after the same calls: a pin is high exactly if
the last call that names it set it high.

The driver itself answers something else. It notes the level of a pin when it is set, and not when
the pin is made an output, which resets it in its port (`Gpio.configureOutput`). So its answer is
decided by the last call that sets the pin (`PinCall.lastSet?`), and it agrees with the bank exactly
if no pin was made an output while it was noted as high and was not set since
(`driver_agrees_iff`).

One call is one word in one BSRR, which says something of one pin (`order?_of_call`), and the words
of the other ports were taken over before, so that taking them over once more changes nothing
(`Wired.Shows.latched`).
-/

namespace ServoPulse

/-! ### Calls to the driver -/

namespace PinCall

/-- The call to the pins of a board. -/
def onBoard {β : Type} [Board β] : PinCall → Action β Unit
  | configureOutput pin => modify (Board.configureOutput pin)
  | setHigh pin => Board.setHigh pin
  | setLow pin => Board.setLow pin

/-- The last call that sets a pin high or low. -/
def lastSet? (pin : Nat) (calls : List PinCall) : Option PinCall :=
  last? pin (calls.filter (· ≠ configureOutput pin))

variable {calls : List PinCall} {k : PinCall} {pin : Nat}

theorem lastSet?_concat : lastSet? pin (calls ++ [k]) =
    if pin = k.pin ∧ k ≠ configureOutput pin then some k else lastSet? pin calls := by
  rw [lastSet?, List.filter_append, List.filter_singleton]
  by_cases h_set : k = configureOutput pin
  · -- a configuration does not count as a setting
    rw [decide_eq_false (not_not_intro h_set), cond_false, List.append_nil,
      if_neg fun h_and => h_and.2 h_set]
    rfl
  · -- any other call does, if it is about the pin
    rw [decide_eq_true h_set, cond_true, last?_concat]
    simp only [h_set, ne_eq, not_false_eq_true, and_true]
    rfl

/-- The last call sets the pin, unless it makes it an output. -/
theorem lastSet?_eq_last? (h : last? pin calls ≠ some (configureOutput pin)) :
    lastSet? pin calls = last? pin calls := by
  induction calls using List.reverseRecOn with
  | nil =>
    -- no call, and nothing was set
    rfl
  | append_singleton calls k ih =>
    rw [last?_concat] at h
    rw [lastSet?_concat, last?_concat]
    by_cases h_pin : pin = k.pin
    · rw [if_pos h_pin, ne_eq, Option.some.injEq] at h
      rw [if_pos h_pin, if_pos ⟨h_pin, h⟩]
    · rw [if_neg h_pin] at h
      rw [if_neg h_pin, if_neg fun h_and => h_pin h_and.1, ih h]

end PinCall

/-- What the driver of the outputs and its registers become by a call. -/
def Gpio.call (k : PinCall) (g : Gpio) (m : Memory) : Gpio × Memory :=
  match k with
  | .configureOutput pin => (g, g.configureOutput pin m)
  | .setHigh pin => g.drive pin true m
  | .setLow pin => g.drive pin false m

/-! ### Ports -/

namespace Gpio

/-- What the word in BSRR says of a pin of a driven block. To set it goes before to reset it. -/
def order? (m : Memory) (pin : Nat) : Option Bool := do
  let base ← blockBase? (pin / 16)
  let word := m.read (bsrr base)
  if word.getLsbD (pin % 16) then some true
  else if word.getLsbD (16 + pin % 16) then some false
  else none

end Gpio

/-- A chip with its output pins. -/
structure Wired where
  chip : Chip
  /-- Whether the port drives a pin high. -/
  output : Nat → Bool := fun _ => false

namespace Wired

/-- The ports do what stands in BSRR, and leave the other pins as they are. -/
def latch (s : Wired) : Wired :=
  { s with output := fun pin => (Gpio.order? s.chip.memory pin).getD (s.output pin) }

/-- A chip that was just reset, with a driver for the pins `ids`. -/
def reset (ids : Vector Nat 6) (prescaler : BitVec 16) : Wired :=
  { chip := { prescaler, gpio := { ids } } }

end Wired

/-- The call to the driver, and what the ports make of it. -/
def PinCall.onPorts (k : PinCall) : Action Wired Unit := do
  Action.zoom Wired.chip (fun chip s => { s with chip }) k.onBoard
  modify Wired.latch

/-! ### What a call writes -/

namespace Gpio

variable {g : Gpio} {m : Memory} {k : PinCall} {pin block base base' : Nat} {level : Bool}

theorem getLsbD_bsrrWord {n j : Nat} (h_n : n < 16) :
    (bsrrWord n level).getLsbD j = decide (j = if level then n else 16 + n) := by
  have h_lt : (if level then n else 16 + n) < 32 := by
    split <;> omega
  rw [bsrrWord, BitVec.getLsbD_twoPow, decide_eq_true h_lt, Bool.true_and]
  exact decide_eq_decide.2 eq_comm

theorem exists_locate? (h_pin : pin ∈ g.ids.toList) (h_block : blockBase? (pin / 16) = some base) :
    ∃ slot, g.locate? pin = some (slot, base) := by
  obtain ⟨slot, h_slot⟩ := Option.isSome_iff_exists.1 (List.isSome_idxOf?.2 h_pin)
  exact ⟨slot, locate?_eq_some_iff.2 ⟨h_slot, h_block⟩⟩

/-- A call writes one word to the BSRR of its block, and none to another. -/
theorem read_bsrr_call (h_pin : k.pin ∈ g.ids.toList)
    (h_block : blockBase? (k.pin / 16) = some base) (h' : blockBase? block = some base') :
    (g.call k m).2.read (bsrr base') =
      if block = k.pin / 16 then bsrrWord (k.pin % 16) k.level else m.read (bsrr base') := by
  obtain ⟨slot, h_locate⟩ := exists_locate? h_pin h_block
  -- different blocks have different registers
  have h_same : bsrr base = bsrr base' ↔ block = k.pin / 16 := by
    constructor
    · intro h_eq
      exact ((registers_apart h_block h').2 (Nat.add_right_cancel h_eq)).symm
    · rintro rfl
      rw [Option.some.inj (h_block.symm.trans h')]
  have h_write (level : Bool) : (m.write (bsrr base) (bsrrWord (k.pin % 16) level)).read
      (bsrr base') = if block = k.pin / 16 then bsrrWord (k.pin % 16) level
        else m.read (bsrr base') := by
    simp only [Memory.read_write, h_same]
  cases k with
  | configureOutput pin =>
    change (g.configureOutput pin m).read _ = _
    rw [configureOutput, show g.locate? pin = some (slot, base) from h_locate]
    -- the configuration of the mode does not reach the set and reset register
    exact (Memory.read_modify _ _ _ _).trans
      ((if_neg (registers_apart h_block h').1).trans (h_write false))
  | setHigh pin =>
    change (g.drive pin true m).2.read _ = _
    rw [drive, show g.locate? pin = some (slot, base) from h_locate]
    exact h_write true
  | setLow pin =>
    change (g.drive pin false m).2.read _ = _
    rw [drive, show g.locate? pin = some (slot, base) from h_locate]
    exact h_write false

/-- **The order of a call.** It is for the pin that the call names and no other one of the block,
and the other blocks keep theirs. -/
theorem order?_of_call (h_pin : k.pin ∈ g.ids.toList)
    (h_block : blockBase? (k.pin / 16) = some base) (pin : Nat) :
    order? (g.call k m).2 pin =
      if pin = k.pin then some k.level
      else if pin / 16 = k.pin / 16 then none else order? m pin := by
  by_cases h_eq : pin / 16 = k.pin / 16
  · -- in the block of the call, one bit of the half word was written, for this pin or another
    have h_n : k.pin % 16 < 16 := Nat.mod_lt _ (by decide)
    have h_this : pin = k.pin ↔ pin % 16 = k.pin % 16 := by omega
    simp only [order?, h_eq, h_block, Option.bind_eq_bind, Option.bind_some,
      read_bsrr_call h_pin h_block h_block, if_true, getLsbD_bsrrWord h_n, decide_eq_true_eq,
      h_this]
    cases k.level with
    | false =>
      have h_set : ¬pin % 16 = 16 + k.pin % 16 := by omega
      simp only [Bool.false_eq_true, if_false, if_neg h_set, Nat.add_left_cancel_iff]
    | true =>
      have h_reset : ¬16 + pin % 16 = k.pin % 16 := by omega
      simp only [if_true, if_neg h_reset]
  · -- the register of another block is as it was
    have h_ne : pin ≠ k.pin := fun h => h_eq (h ▸ rfl)
    rw [if_neg h_ne, if_neg h_eq]
    unfold order?
    cases h' : blockBase? (pin / 16) with
    | none => rfl
    | some base' =>
      simp only [Option.bind_eq_bind, Option.bind_some, read_bsrr_call h_pin h_block h',
        if_neg h_eq]

theorem ids_call : (g.call k m).1.ids = g.ids := by
  cases k with
  | configureOutput => rfl
  | setHigh => exact ids_drive
  | setLow => exact ids_drive

/-- A call for a pin that is not eligible does nothing. -/
theorem call_of_not_mem (h_pin : k.pin ∉ g.ids.toList) : g.call k m = (g, m) := by
  cases k with
  | configureOutput pin =>
    have h_slot : g.slot? pin = none := List.idxOf?_eq_none_iff.2 h_pin
    rw [call, configureOutput, locate?, h_slot]
    rfl
  | setHigh => exact drive_of_not_mem h_pin
  | setLow => exact drive_of_not_mem h_pin

/-- The driver notes the level of a pin when it is set, and not when it is made an output. -/
theorem isHigh_call (h_pin : k.pin ∈ g.ids.toList) (h_block : blockBase? (k.pin / 16) = some base)
    (pin : Nat) :
    (g.call k m).1.isHigh pin =
      if pin = k.pin ∧ k ≠ .configureOutput pin then k.level else g.isHigh pin := by
  cases k with
  | configureOutput other =>
    -- the driver takes no note of a configuration
    refine (if_neg fun h_and => ?_).symm
    exact h_and.2 (congrArg PinCall.configureOutput h_and.1.symm)
  | setHigh other =>
    refine (isHigh_drive h_pin h_block pin).trans (if_congr ?_ rfl rfl)
    exact (and_iff_left nofun).symm
  | setLow other =>
    refine (isHigh_drive h_pin h_block pin).trans (if_congr ?_ rfl rfl)
    exact (and_iff_left nofun).symm

end Gpio

/-! ### Runs of calls -/

namespace Wired

variable {ids : Vector Nat 6} {s : Wired} {calls : List PinCall} {k : PinCall} {p : Profile}

/-- The chip and its outputs after a call. -/
def call (k : PinCall) (s : Wired) : Wired :=
  latch { s with chip := { s.chip with
    gpio := (s.chip.gpio.call k s.chip.memory).1
    memory := (s.chip.gpio.call k s.chip.memory).2 } }

theorem run_onPorts (k : PinCall) (p : Profile) (s : Wired) :
    k.onPorts.run p s = .ok () (s.call k) := by
  cases k <;> rfl

/-- What a chip with the pins `ids` shows after some calls. -/
structure Shows (ids : Vector Nat 6) (calls : List PinCall) (s : Wired) : Prop where
  ids_eq : s.chip.gpio.ids = ids
  noted_iff : ∀ pin, s.chip.gpio.isHigh pin = true ↔
    pin ∈ ids.toList ∧ PinCall.lastSet? pin calls = some (.setHigh pin)
  output_iff : ∀ pin, s.output pin = true ↔
    pin ∈ ids.toList ∧ PinCall.last? pin calls = some (.setHigh pin)
  /-- The ports have taken over what stands in BSRR. -/
  latched : s.latch = s

namespace Shows

theorem reset (ids : Vector Nat 6) (prescaler : BitVec 16) :
    Shows ids [] (reset ids prescaler) where
  ids_eq := rfl
  noted_iff pin := by
    -- no slot is noted as high in the beginning
    have h_low : Gpio.isHigh { ids } pin = false := by
      unfold Gpio.isHigh
      split
      · rw [Vector.getElem?_replicate]
        split <;> rfl
      · rfl
    exact iff_of_false (fun h => Bool.false_ne_true (h_low.symm.trans h)) fun h => nomatch h.2
  output_iff pin := iff_of_false Bool.false_ne_true fun h => nomatch h.2
  latched := by
    refine congrArg (Wired.mk _) (funext fun pin => ?_)
    -- and nothing was ever ordered of a pin
    have h_none : Gpio.order? {} pin = none := by
      unfold Gpio.order?
      cases Gpio.blockBase? (pin / 16) <;> simp
    exact congrArg (·.getD false) h_none

theorem latch_latch (s : Wired) : s.latch.latch = s.latch := by
  refine congrArg (Wired.mk _) (funext fun pin => ?_)
  change (Gpio.order? s.chip.memory pin).getD ((Gpio.order? s.chip.memory pin).getD _) = _
  cases Gpio.order? s.chip.memory pin <;> rfl

/-- **One call.** It sets the output of its pin, if that is eligible, and no other one. -/
theorem call (h : Shows ids calls s)
    (h_blocks : ∀ pin ∈ ids.toList, ∃ base, Gpio.blockBase? (pin / 16) = some base) (k : PinCall) :
    Shows ids (calls ++ [k]) (s.call k) := by
  have h_ids : (s.call k).chip.gpio.ids = ids := Gpio.ids_call.trans h.ids_eq
  by_cases h_pin : k.pin ∈ ids.toList
  · obtain ⟨base, h_block⟩ := h_blocks k.pin h_pin
    have h_mem : k.pin ∈ s.chip.gpio.ids.toList := h.ids_eq ▸ h_pin
    refine ⟨h_ids, fun pin => ?_, fun pin => ?_, latch_latch _⟩
    · -- what the driver has noted
      change (s.chip.gpio.call k s.chip.memory).1.isHigh pin = true ↔ _
      rw [Gpio.isHigh_call h_mem h_block, PinCall.lastSet?_concat]
      by_cases h_set : pin = k.pin ∧ k ≠ .configureOutput pin
      · rw [if_pos h_set, if_pos h_set, h_set.1, Option.some.injEq, PinCall.level_iff,
          and_iff_right h_pin]
      · rw [if_neg h_set, if_neg h_set, h.noted_iff]
    · -- what the pins do: a pin follows the order in the register, if there is one
      change (Gpio.order? (s.chip.gpio.call k s.chip.memory).2 pin).getD (s.output pin) = true ↔ _
      rw [Gpio.order?_of_call h_mem h_block, PinCall.last?_concat]
      by_cases h_eq : pin = k.pin
      · rw [if_pos h_eq, if_pos h_eq, h_eq, Option.some.injEq, ← PinCall.level_iff,
          and_iff_right h_pin]
        rfl
      · have h_kept : (Gpio.order? s.chip.memory pin).getD (s.output pin) = s.output pin :=
          congrFun (congrArg output h.latched) pin
        rw [if_neg h_eq, if_neg h_eq, ← h.output_iff]
        split
        · rfl
        · rw [h_kept]
  · -- a call for a pin without a slot does nothing
    have h_call : s.call k = s := by
      rw [Wired.call, Gpio.call_of_not_mem (h.ids_eq ▸ h_pin)]
      exact h.latched
    have h_ne {pin : Nat} (h_mem : pin ∈ ids.toList) : pin ≠ k.pin := fun h_eq =>
      h_pin (h_eq ▸ h_mem)
    rw [h_call]
    refine ⟨h.ids_eq, fun pin => ?_, fun pin => ?_, h.latched⟩
    · rw [h.noted_iff, PinCall.lastSet?_concat]
      exact and_congr_right fun h_mem => by rw [if_neg fun h_and => h_ne h_mem h_and.1]
    · rw [h.output_iff, PinCall.last?_concat]
      exact and_congr_right fun h_mem => by rw [if_neg (h_ne h_mem)]

end Shows

theorem exists_blockBase? (h_blocks : ∀ pin ∈ ids.toList, pin / 16 ∈ [0, 1, 5]) (pin : Nat)
    (h_pin : pin ∈ ids.toList) : ∃ base, Gpio.blockBase? (pin / 16) = some base := by
  have h_each : ∀ block ∈ [0, 1, 5], (Gpio.blockBase? block).isSome = true := by decide
  exact Option.isSome_iff_exists.1 (h_each _ (h_blocks pin h_pin))

/-- After a list of calls the chip shows them. -/
theorem exists_run_calls (prescaler : BitVec 16)
    (h_blocks : ∀ pin ∈ ids.toList, ∃ base, Gpio.blockBase? (pin / 16) = some base)
    (calls : List PinCall) (p : Profile) :
    ∃ s, (calls.forM PinCall.onPorts).run p (reset ids prescaler) = .ok () s ∧
      Shows ids calls s := by
  -- from any calls on, so that the list can be taken apart from its front
  have h_run {before : List PinCall} {s : Wired} (h : Shows ids before s) :
      ∃ s', (calls.forM PinCall.onPorts).run p s = .ok () s' ∧ Shows ids (before ++ calls) s' := by
    -- on the calls, for any calls before
    induction calls generalizing before s with
    | nil => exact ⟨s, Action.run_forM_nil_eq_ok_iff.2 rfl, (List.append_nil before).symm ▸ h⟩
    | cons k calls ih =>
      obtain ⟨s', h_run, h_shows⟩ := ih (h.call h_blocks k)
      rw [List.append_assoc] at h_shows
      exact ⟨s', Action.run_forM_cons_eq_ok_iff.2 ⟨_, run_onPorts k p s, h_run⟩, h_shows⟩
  exact h_run (.reset ids prescaler)

/-! ### The driver and the bank -/

/-- **The driver and a bank of outputs.** With six pins on driven blocks both serve every list of
calls. The bank says that a pin is high exactly if it is eligible and the last call that names it
set it high, and then its port drives it high. The driver says so exactly if the last call that set
it at all, high or low, set it high. So they agree exactly if there is no eligible pin that was last
set high and then made an output. -/
theorem driver_agrees_iff {ids : Vector Nat 6}
    (h_blocks : ∀ pin ∈ ids.toList, pin / 16 ∈ [0, 1, 5]) (failing : List Nat)
    (prescaler : BitVec 16) (calls : List PinCall) (now : Nat) (p : Profile) :
    ∃ (new b : OutputBank) (s : Wired), (OutputBank.make ids.toList failing).run p = .ok new ∧
      (calls.forM (·.onBank now)).run p new = .ok () b ∧
      (calls.forM PinCall.onPorts).run p (reset ids prescaler) = .ok () s ∧
      (∀ pin, PinBank.isHigh b pin = true ↔
        pin ∈ ids.toList ∧ PinCall.last? pin calls = some (.setHigh pin)) ∧
      (∀ pin ∈ ids.toList, s.output pin = PinBank.isHigh b pin) ∧
      (∀ pin, Board.isHigh s.chip pin = true ↔
        pin ∈ ids.toList ∧ PinCall.lastSet? pin calls = some (.setHigh pin)) ∧
      ((∀ pin, Board.isHigh s.chip pin = PinBank.isHigh b pin) ↔
        ∀ pin ∈ ids.toList, PinCall.last? pin calls = some (.configureOutput pin) →
          PinCall.lastSet? pin calls ≠ some (.setHigh pin)) := by
  have h_size : ids.toList.length ≤ 32 := by
    rw [Vector.length_toList]
    decide
  let new : OutputBank := { ids := ids.toList, failing }
  have h_bank := OutputBank.isHigh_driveAll_iff (b := new) h_size
    (OutputBank.isHigh_new ids.toList failing) calls
  obtain ⟨s, h_run, h_shows⟩ := exists_run_calls prescaler (exists_blockBase? h_blocks) calls p
  refine ⟨new, new.driveAll calls, s, OutputBank.run_make h_size failing p,
    OutputBank.run_calls calls now p new, h_run, h_bank, fun pin _ => ?_, h_shows.noted_iff, ?_⟩
  · -- the pins always are as the bank has them
    exact Bool.eq_iff_iff.2 ((h_shows.output_iff pin).trans (h_bank pin).symm)
  constructor
  · -- where the two agree, no configured pin can be noted as high
    intro h_agree pin h_pin h_last h_set
    have h_high := (h_agree pin).symm.trans ((h_shows.noted_iff pin).2 ⟨h_pin, h_set⟩)
    obtain ⟨-, h_other⟩ := (h_bank pin).1 h_high
    rw [h_last] at h_other
    cases h_other
  · -- and where none is, the last setting is the last call, or the pin was never set
    intro h_last pin
    refine Bool.eq_iff_iff.2 ((h_shows.noted_iff pin).trans (.trans ?_ (h_bank pin).symm))
    refine and_congr_right fun h_pin => ?_
    by_cases h_output : PinCall.last? pin calls = some (.configureOutput pin)
    · refine iff_of_false (h_last pin h_pin h_output) ?_
      rw [h_output]
      exact nofun
    · rw [PinCall.lastSet?_eq_last? h_output]

theorem servoHeaders_blocks : ∀ pin ∈ Pin.servoHeaders.toList, pin / 16 ∈ [0, 1, 5] := by decide

/-- Pin 6 was made an output and set high; pin 7 was set high and low, and then made an output. -/
theorem driver_agrees_iff_servoHeaders :
    (∀ pin ∈ Pin.servoHeaders.toList, pin / 16 ∈ [0, 1, 5]) ∧
    ∃ (b : OutputBank) (s : Wired),
      ([.configureOutput 6, .setHigh 6, .setHigh 7, .setLow 7, .configureOutput 7].forM
        (PinCall.onBank 0)).run .debug { ids := Pin.servoHeaders.toList } = .ok () b ∧
      ([.configureOutput 6, .setHigh 6, .setHigh 7, .setLow 7, .configureOutput 7].forM
        PinCall.onPorts).run .debug (reset Pin.servoHeaders 0) = .ok () s ∧
      s.output 6 = true ∧ Board.isHigh s.chip 6 = true ∧
      ∀ pin, Board.isHigh s.chip pin = PinBank.isHigh b pin := by
  obtain ⟨new, b, s, h_make, h_bank, h_run, h_high, h_output, -, h_agree⟩ :=
    driver_agrees_iff servoHeaders_blocks [] 0
      [.configureOutput 6, .setHigh 6, .setHigh 7, .setLow 7, .configureOutput 7] 0 .debug
  obtain rfl : { ids := Pin.servoHeaders.toList } = new := Except.ok.inj h_make
  have h_same := h_agree.2 (by decide)
  have h_six := (h_high 6).2 (by decide)
  exact ⟨servoHeaders_blocks, b, s, h_bank, h_run, (h_output 6 (by decide)).trans h_six,
    (h_same 6).trans h_six, h_same⟩

/-- A pin that is set high and then made an output again is low for the bank, and the driver still
calls it high. -/
theorem not_forall_driver_agrees :
    ¬ ∀ (ids : Vector Nat 6) (calls : List PinCall) (b : OutputBank) (s : Wired),
      ids.toList.Nodup → (∀ pin ∈ ids.toList, pin / 16 ∈ [0, 1, 5]) →
      (calls.forM (PinCall.onBank 0)).run .debug { ids := ids.toList } = .ok () b →
      (calls.forM PinCall.onPorts).run .debug (reset ids 0) = .ok () s →
        ∀ pin, Board.isHigh s.chip pin = PinBank.isHigh b pin := by
  intro h_all
  let calls : List PinCall := [.configureOutput 6, .setHigh 6, .configureOutput 6]
  obtain ⟨s, h_run, h_shows⟩ := exists_run_calls 0 (exists_blockBase? servoHeaders_blocks) calls
    .debug
  have h_driver : Board.isHigh s.chip 6 = true := (h_shows.noted_iff 6).2 (by decide)
  have h_agree := h_all Pin.servoHeaders calls _ s (by decide) servoHeaders_blocks
    (OutputBank.run_calls calls 0 .debug _) h_run 6
  have h_bank : PinBank.isHigh (OutputBank.driveAll { ids := Pin.servoHeaders.toList } calls) 6 =
      false := by decide
  exact Bool.noConfusion (h_driver.symm.trans (h_agree.trans h_bank))

end Wired

end ServoPulse
