import ServoPulse.Proofs.BoardInvariants
import ServoPulse.Proofs.ChipTracking
import ServoPulse.Proofs.Replay
import ServoPulse.Stm32.Pin

/-!
# The drivers write what they own

The chip has one memory for all its registers, and many of them hold bits of other owners: the clock
gates of other timers, the modes and the levels of other pins. What an engine may do to a word is
`Allowed`, by its address. The relation is a preorder for each address, and so `Touches`, which says
it of all addresses, is one as well; each call of a driver is a few writes that are allowed
(`Chip.boardStable_within`), and so is everything that an engine on the chip does
(`touches_only_own`).
-/

namespace ServoPulse

/-- The registers that the driver of the timer writes. -/
def Tim3.registers : List Nat := [apb1enr, cr1, dier, sr, egr, cnt, psc, arr, ccr1]

/-- The bits of a word at an address that an engine with the eligible pins `ids` may change. -/
structure Allowed (ids : List Nat) (address : Nat) (old new : Word) : Prop where
  outside : address ∉ Tim3.registers → (∀ block base, Gpio.blockBase? block = some base →
    address ≠ Gpio.moder base ∧ address ≠ Gpio.bsrr base) → new = old
  clock_gate : address = Tim3.apb1enr → ∀ i ≠ Tim3.tim3en, new.getLsbD i = old.getLsbD i
  control : address = Tim3.cr1 → ∀ i ≠ Tim3.cen, new.getLsbD i = old.getLsbD i
  prescaler : address = Tim3.psc → ∀ i ≥ 16, new.getLsbD i = old.getLsbD i
  /-- The mode of pin `n` is in the bits `2 * n` and `2 * n + 1`. -/
  modes : ∀ block base, Gpio.blockBase? block = some base → address = Gpio.moder base →
    ∀ i, 16 * block + i / 2 ∉ ids → new.getLsbD i = old.getLsbD i
  /-- One bit is set, which sets or resets one pin. -/
  levels : ∀ block base, Gpio.blockBase? block = some base → address = Gpio.bsrr base →
    new = old ∨ ∃ n < 16, 16 * block + n ∈ ids ∧ ∃ i, (i = n ∨ i = 16 + n) ∧
      ∀ j, new.getLsbD j = decide (j = i)

/-- The memory `m'` differs from `m` by what an engine with the eligible pins `ids` may change. -/
def Touches (ids : List Nat) (m m' : Memory) : Prop :=
  ∀ address, Allowed ids address (m.read address) (m'.read address)

namespace Allowed

variable {ids : List Nat} {address : Nat} {old new newer : Word}

theorem refl (ids : List Nat) (address : Nat) (w : Word) : Allowed ids address w w where
  outside _ _ := rfl
  clock_gate _ _ _ := rfl
  control _ _ _ := rfl
  prescaler _ _ _ := rfl
  modes _ _ _ _ _ _ := rfl
  levels _ _ _ _ := .inl rfl

theorem trans (h : Allowed ids address old new) (h' : Allowed ids address new newer) :
    Allowed ids address old newer where
  outside h_timer h_gpio := (h'.outside h_timer h_gpio).trans (h.outside h_timer h_gpio)
  clock_gate h_eq i h_i := (h'.clock_gate h_eq i h_i).trans (h.clock_gate h_eq i h_i)
  control h_eq i h_i := (h'.control h_eq i h_i).trans (h.control h_eq i h_i)
  prescaler h_eq i h_i := (h'.prescaler h_eq i h_i).trans (h.prescaler h_eq i h_i)
  modes block base h_block h_eq i h_i :=
    (h'.modes block base h_block h_eq i h_i).trans (h.modes block base h_block h_eq i h_i)
  -- the levels of the pins are those of the last write that touched them
  levels block base h_block h_eq := by
    rcases h'.levels block base h_block h_eq with h_same | h_one
    · rw [h_same]
      exact h.levels block base h_block h_eq
    · exact .inr h_one

end Allowed

namespace Touches

variable {ids : List Nat} {m m' m'' : Memory} {address : Nat} {w : Word}

theorem refl (ids : List Nat) (m : Memory) : Touches ids m m := fun address => .refl ids address _

theorem trans (h : Touches ids m m') (h' : Touches ids m' m'') : Touches ids m m'' :=
  fun address => (h address).trans (h' address)

/-- A write that is allowed at its address touches nothing else. -/
theorem write (h : Allowed ids address (m.read address) w) : Touches ids m (m.write address w) := by
  intro other
  rw [Memory.read_write]
  by_cases h_eq : address = other
  · rw [if_pos h_eq]
    exact h_eq ▸ h
  · rw [if_neg h_eq]
    exact .refl ids other _

end Touches

/-! ### The timer -/

namespace Tim3

variable {ids : List Nat} {address : Nat} {m : Memory} {old new : Word}

/-- The registers of the timer are none of those of a block. -/
theorem ne_gpio (h : address ∈ registers) {block base : Nat}
    (h_block : Gpio.blockBase? block = some base) :
    address ≠ Gpio.moder base ∧ address ≠ Gpio.bsrr base := by
  have h_low : ∀ address ∈ registers, address < 0x48000000 := by decide
  have h_lt := h_low address h
  have h_base := Gpio.le_of_blockBase? h_block
  rw [Gpio.moder, Gpio.bsrr]
  omega

theorem allowed (h : address ∈ registers)
    (h_gate : address = apb1enr → ∀ i ≠ tim3en, new.getLsbD i = old.getLsbD i)
    (h_control : address = cr1 → ∀ i ≠ cen, new.getLsbD i = old.getLsbD i)
    (h_prescaler : address = psc → ∀ i ≥ 16, new.getLsbD i = old.getLsbD i) :
    Allowed ids address old new where
  outside h_not _ := absurd h h_not
  clock_gate := h_gate
  control := h_control
  prescaler := h_prescaler
  modes _ _ h_block h_eq := absurd h_eq (ne_gpio h h_block).1
  levels _ _ h_block h_eq := absurd h_eq (ne_gpio h h_block).2

/-- The registers that belong to the timer as a whole may be written to freely. -/
theorem allowed_free (h : address ∈ [dier, sr, egr, cnt, arr, ccr1]) (old new : Word) :
    Allowed ids address old new := by
  have h_free : ∀ address ∈ [dier, sr, egr, cnt, arr, ccr1],
      address ∈ registers ∧ address ≠ apb1enr ∧ address ≠ cr1 ∧ address ≠ psc := by decide
  obtain ⟨h_mem, h_gate, h_control, h_prescaler⟩ := h_free address h
  exact allowed h_mem (absurd · h_gate) (absurd · h_control) (absurd · h_prescaler)

theorem getLsbD_setBit_of_ne {i j : Nat} (h : j ≠ i) (w : Word) (b : Bool) :
    (w.setBit i b).getLsbD j = w.getLsbD j := by
  rw [Word.getLsbD_setBit, if_neg fun h_and => h h_and.1]

theorem touches_free (h : address ∈ [dier, sr, egr, cnt, arr, ccr1]) (w : Word) :
    Touches ids m (m.write address w) :=
  .write (allowed_free h _ w)

theorem touches_control (b : Bool) : Touches ids m (m.modify cr1 (·.setBit cen b)) := by
  refine .write (allowed (by decide) (fun h_eq => absurd h_eq (by decide)) ?_
    fun h_eq => absurd h_eq (by decide))
  exact fun _ i h_i => getLsbD_setBit_of_ne h_i _ b

theorem touches_gate : Touches ids m (m.modify apb1enr (·.setBit tim3en true)) := by
  refine .write (allowed (by decide) ?_ (fun h_eq => absurd h_eq (by decide))
    fun h_eq => absurd h_eq (by decide))
  exact fun _ i h_i => getLsbD_setBit_of_ne h_i _ true

theorem touches_prescaler (prescaler : BitVec 16) :
    Touches ids m (m.modify psc (·.setLowHalf prescaler)) := by
  refine .write (allowed (by decide) (fun h_eq => absurd h_eq (by decide))
    (fun h_eq => absurd h_eq (by decide)) fun _ i h_i => ?_)
  rw [Word.getLsbD_setLowHalf, if_neg (Nat.not_lt.2 h_i)]

theorem touches_start (prescaler : BitVec 16) : Touches ids m (start prescaler m) :=
  touches_gate
    |>.trans (touches_control false)
    |>.trans (touches_prescaler prescaler)
    |>.trans (touches_free (by decide) _)
    |>.trans (touches_free (by decide) _)
    |>.trans (touches_free (by decide) _)
    |>.trans (touches_free (by decide) _)
    |>.trans (touches_free (by decide) _)
    |>.trans (touches_control true)

theorem touches_stop : Touches ids m (stop m) :=
  (touches_control false).trans (touches_free (by decide) _)
    |>.trans (touches_free (by decide) _)

theorem touches_arm (value : Count) : Touches ids m (arm value m) :=
  (touches_free (by decide) _).trans (touches_free (by decide) _)

theorem touches_disarm : Touches ids m (disarm m) :=
  (touches_free (by decide) _).trans (touches_free (by decide) _)

theorem touches_takeFlag (flag : Nat) : Touches ids m (takeFlag flag m).2 := by
  unfold takeFlag
  split
  · exact touches_free (by decide) _
  · exact .refl ids m

end Tim3

/-! ### The outputs -/

namespace Gpio

variable {ids : List Nat} {m : Memory} {old new : Word} {block base block' base' : Nat}

/-- The registers of different blocks are apart, and so are those of one block. -/
theorem registers_apart (h : blockBase? block = some base) (h' : blockBase? block' = some base') :
    moder base ≠ bsrr base' ∧ (base = base' → block = block') := by
  -- three blocks have registers, and they lie far apart
  have h_blocks {k b : Nat} (h_k : blockBase? k = some b) :
      (k, b) ∈ [(0, 0x48000000), (1, 0x48000400), (5, 0x48001400)] := by
    unfold blockBase? at h_k
    split at h_k
    · simp_all
    · simp_all
    · simp_all
    · -- the other blocks have none
      cases h_k
  have h_apart : ∀ x ∈ [(0, 0x48000000), (1, 0x48000400), (5, 0x48001400)],
      ∀ y ∈ [(0, 0x48000000), (1, 0x48000400), (5, 0x48001400)],
      moder x.2 ≠ bsrr y.2 ∧ (x.2 = y.2 → x.1 = y.1) := by decide
  exact h_apart _ (h_blocks h) _ (h_blocks h')

/-- The registers of a block are none of the timer's. -/
theorem not_mem_registers (h : blockBase? block = some base) :
    moder base ∉ Tim3.registers ∧ bsrr base ∉ Tim3.registers :=
  ⟨fun h_mem => (Tim3.ne_gpio h_mem h).1 rfl, fun h_mem => (Tim3.ne_gpio h_mem h).2 rfl⟩

theorem allowed_moder (h : blockBase? block = some base)
    (h_modes : ∀ i, 16 * block + i / 2 ∉ ids → new.getLsbD i = old.getLsbD i) :
    Allowed ids (moder base) old new where
  outside _ h_gpio := absurd rfl (h_gpio block base h).1
  clock_gate h_eq := absurd (h_eq ▸ by decide) (not_mem_registers h).1
  control h_eq := absurd (h_eq ▸ by decide) (not_mem_registers h).1
  prescaler h_eq := absurd (h_eq ▸ by decide) (not_mem_registers h).1
  modes block' base' h' h_eq := by
    obtain rfl := (registers_apart h h').2 h_eq
    exact h_modes
  levels block' base' h' h_eq := absurd h_eq (registers_apart h h').1

theorem allowed_bsrr {n : Nat} (h : blockBase? block = some base) (h_n : n < 16)
    (h_mem : 16 * block + n ∈ ids) (old : Word) (level : Bool) :
    Allowed ids (bsrr base) old (bsrrWord n level) where
  outside _ h_gpio := absurd rfl (h_gpio block base h).2
  clock_gate h_eq := absurd (h_eq ▸ by decide) (not_mem_registers h).2
  control h_eq := absurd (h_eq ▸ by decide) (not_mem_registers h).2
  prescaler h_eq := absurd (h_eq ▸ by decide) (not_mem_registers h).2
  modes block' base' h' h_eq := absurd h_eq.symm (registers_apart h' h).1
  levels block' base' h' h_eq := by
    obtain rfl := (registers_apart h h').2 (Nat.add_right_cancel h_eq)
    -- the pin has one bit of the word for high and one for low
    refine .inr ⟨n, h_n, h_mem, if level then n else 16 + n, ?_, fun j => ?_⟩
    · cases level
      · exact .inr rfl
      · exact .inl rfl
    · have h_lt : (if level then n else 16 + n) < 32 := by
        split
        · omega
        · -- both lie in the register of thirty-two bits
          omega
      rw [bsrrWord, BitVec.getLsbD_twoPow, decide_eq_true h_lt, Bool.true_and]
      exact decide_eq_decide.2 eq_comm

/-- Only the two bits of the mode of a pin change. -/
theorem getLsbD_setOutput {n i : Nat} (h : i / 2 ≠ n) (w : Word) :
    (setOutput n w).getLsbD i = w.getLsbD i := by
  rw [setOutput, Tim3.getLsbD_setBit_of_ne (by omega), Tim3.getLsbD_setBit_of_ne (by omega)]

variable {g : Gpio} {pin slot : Nat}

/-- A pin that is found is eligible, and its number says where it is. -/
theorem mem_of_locate? (h : g.locate? pin = some (slot, base)) :
    blockBase? (pin / 16) = some base ∧ 16 * (pin / 16) + pin % 16 ∈ g.ids.toList := by
  obtain ⟨h_slot, h_block⟩ := locate?_eq_some_iff.1 h
  refine ⟨h_block, ?_⟩
  obtain ⟨h_lt, h_pin, -⟩ := List.idxOf?_eq_some_iff.1 h_slot
  rw [Nat.div_add_mod, ← h_pin]
  exact List.getElem_mem h_lt

theorem touches_drive (g : Gpio) (pin : Nat) (level : Bool) (m : Memory) :
    Touches g.ids.toList m (g.drive pin level m).2 := by
  unfold drive
  cases h : g.locate? pin with
  | none => exact .refl _ m
  | some place =>
    obtain ⟨h_block, h_mem⟩ := mem_of_locate? h
    exact .write (allowed_bsrr h_block (Nat.mod_lt _ (by decide)) h_mem _ level)

theorem touches_configureOutput (g : Gpio) (pin : Nat) (m : Memory) :
    Touches g.ids.toList m (g.configureOutput pin m) := by
  -- the word for the pin clears its level, and the mode makes it an output
  unfold configureOutput
  cases h : g.locate? pin with
  | none => exact .refl _ m
  | some place =>
    obtain ⟨h_block, h_mem⟩ := mem_of_locate? h
    refine .trans (.write (allowed_bsrr h_block (Nat.mod_lt _ (by decide)) h_mem _ false)) ?_
    refine .write (allowed_moder h_block fun i h_i => getLsbD_setOutput ?_ _)
    -- the mode of the pin itself is not foreign
    intro h_eq
    rw [h_eq] at h_i
    exact h_i h_mem

end Gpio

/-! ### The chip -/

namespace Chip

/-- The chip has the eligible pins `ids`, and its registers differ from `m` by what an engine with
these pins may change. -/
def Within (ids : Vector Nat 6) (m : Memory) (c : Chip) : Prop :=
  c.gpio.ids = ids ∧ Touches ids.toList m c.memory

variable {ids : Vector Nat 6} {m : Memory} {p : Profile}

/-- A call to the driver of the timer. -/
theorem Within.onTimer {c : Chip} (h : Within ids m c) {memory : Memory}
    (h_touches : Touches ids.toList c.memory memory) : Within ids m { c with memory } :=
  ⟨h.1, h.2.trans h_touches⟩

/-- A call to the driver of the outputs. -/
theorem Within.drive {c : Chip} (h : Within ids m c) (pin : Nat) (level : Bool) :
    Within ids m (c.drive pin level) := by
  obtain ⟨rfl, h_touches⟩ := h
  exact ⟨Gpio.ids_drive, h_touches.trans (c.gpio.touches_drive pin level c.memory)⟩

/-- **The drivers.** No call to one of them changes more than it may. -/
theorem boardStable_within : BoardStable p (Within ids m) (Within ids m) where
  startTimer c h := h.onTimer (Tim3.touches_start c.prescaler)
  stopTimer c h := h.onTimer Tim3.touches_stop
  counter _ _ h _ := h
  armCompare value c h := h.onTimer (Tim3.touches_arm value)
  disarmCompare c h := h.onTimer Tim3.touches_disarm
  takeOverflow c h := h.onTimer (Tim3.touches_takeFlag Tim3.update)
  takeCompare c h := h.onTimer (Tim3.touches_takeFlag Tim3.cc1)
  configureOutput pin c h := by
    obtain ⟨rfl, h_touches⟩ := h
    exact ⟨rfl, h_touches.trans (c.gpio.touches_configureOutput pin c.memory)⟩
  setHigh pin c h := h.drive pin true
  setLow pin c h := h.drive pin false

/-- The hardware moves the counter on and sets flags. -/
def Ticks (x : Action Chip Unit) : Prop :=
  ∀ p c c', x.EndsIn p c c' → ∃ count flags,
    c' = { c with memory := (c.memory.write Tim3.cnt count).write Tim3.sr flags }

theorem Ticks.confined {x : Action Chip Unit} (h : Ticks x) :
    Action.Confined (Within ids m) (Within ids m) p x := by
  refine fun c h_c => Action.ends_iff_forall_endsIn.2 fun c' h_end => ?_
  obtain ⟨count, flags, rfl⟩ := h p c c' h_end
  exact h_c.onTimer
    ((Tim3.touches_free (by decide) count).trans (Tim3.touches_free (by decide) flags))

end Chip

namespace Engine

variable {ids : Vector Nat 6} {p : Profile} {e e' : Engine Chip}

/-- An operation of an engine on the chip, which may name any servo. -/
abbrev ChipOperation {α : Type} (x : Action (Engine Chip) α) : Prop :=
  Operation Chip.Ticks (fun _ => True) x

/-- A new engine on a chip with the eligible pins `ids`. -/
def newOnChip (config : Config) (prescaler : BitVec 16) (ids : Vector Nat 6) : Engine Chip :=
  { board := { prescaler, gpio := { ids } }, config }

/-- The runs of an engine on a chip with the eligible pins `ids`, whose registers may be set to
anything between two operations. -/
inductive ChipRun (p : Profile) (ids : Vector Nat 6) : Engine Chip → Prop
  | new (config : Config) (prescaler : BitVec 16) : ChipRun p ids (newOnChip config prescaler ids)
  | poke {e : Engine Chip} (address : Nat) (w : Word) (h_run : ChipRun p ids e) :
    ChipRun p ids { e with board := e.board.poke address w }
  | operation {e e' : Engine Chip} {α : Type} {x : Action (Engine Chip) α} (h_run : ChipRun p ids e)
    (h : ChipOperation x) (h_end : x.EndsIn p e e') : ChipRun p ids e'

/-- An operation changes only what it may. -/
theorem within_of_operation {α : Type} {x : Action (Engine Chip) α}
    (h_e : Holds (fun c => c.gpio.ids = ids) e) (h : ChipOperation x) (h_end : x.EndsIn p e e') :
    Holds (Chip.Within ids e.board.memory) e' := by
  have h_start : Holds (Chip.Within ids e.board.memory) e :=
    ⟨⟨h_e.board, .refl _ _⟩, h_e.wrap_le, h_e.count_le⟩
  exact (h.ends Chip.boardStable_within (fun _ h => h.confined) h_start
    fun _ _ _ => h_start).of_endsIn h_end

theorem ChipRun.holds (h : ChipRun p ids e) : Holds (fun c => c.gpio.ids = ids) e := by
  induction h with
  | new => exact ⟨rfl, Nat.zero_le _, Nat.zero_le _⟩
  | poke _ _ _ ih => exact ⟨ih.board, ih.wrap_le, ih.count_le⟩
  | operation _ h h_end ih =>
    have h_within := within_of_operation ih h h_end
    exact ⟨h_within.board.1, h_within.wrap_le, h_within.count_le⟩

/-- **Foreign bits.** Wherever an operation of an engine on the chip ends, it has left alone every
word outside the registers of the timer and the modes and levels of the three blocks, and in these
every bit that is not the timer's or an eligible pin's: in APB1ENR all bits but that of the timer,
in CR1 all but CEN, the upper half of PSC, and the modes of all other pins. What it wrote for the
levels of a block sets or resets one eligible pin of that block. -/
theorem touches_only_own {α : Type} {x : Action (Engine Chip) α} (h_run : ChipRun p ids e)
    (h : ChipOperation x) (h_end : x.EndsIn p e e') :
    Touches ids.toList e.board.memory e'.board.memory :=
  (within_of_operation h_run.holds h h_end).board.2

/-- An engine on the pins of the servo headers, after all modes of block A were set to analog. -/
def analogModes : Engine Chip :=
  let e := newOnChip {} 1 Pin.servoHeaders
  { e with board := e.board.poke (Gpio.moder 0x48000000) (BitVec.allOnes 32) }

/-- The same engine, started on the first of these pins. -/
def startedOnHeader : Option (Engine Chip) :=
  ((Engine.start (some [6])).result? .debug analogModes).map Prod.snd

theorem isSome_startedOnHeader : startedOnHeader.isSome = true := by decide +kernel

theorem touches_only_own_startedOnHeader :
    ∃ e e' : Engine Chip, ChipRun .debug Pin.servoHeaders e ∧
      (Engine.start (some [6])).EndsIn .debug e e' ∧ e'.started = true ∧
      (e'.board.memory.read (Gpio.moder 0x48000000)).getLsbD 10 = true := by
  -- the modes were all set before the engine was started
  have h_run : ChipRun .debug Pin.servoHeaders analogModes :=
    .poke (Gpio.moder 0x48000000) (BitVec.allOnes 32) (.new {} 1)
  obtain ⟨⟨r, e'⟩, h_result, h_e'⟩ :=
    Option.map_eq_some_iff.1 (Option.some_get isSome_startedOnHeader).symm
  have h_end : (Engine.start (some [6])).EndsIn .debug analogModes e' :=
    .inl ⟨r, Action.run_eq_ok_of_result? h_result⟩
  refine ⟨_, e', h_run, h_end, ?_, ?_⟩
  · refine (congrArg Engine.started h_e').trans ?_
    -- what a start writes, its mode register included, is computed
    decide +kernel
  · -- the mode of pin 5 is not that of a header
    have h_touches := touches_only_own h_run (.start _) h_end (Gpio.moder 0x48000000)
    rw [h_touches.modes 0 0x48000000 rfl rfl 10 (by decide)]
    change ((Memory.write {} _ (BitVec.allOnes 32)).read _).getLsbD 10 = true
    rw [Memory.read_write, if_pos rfl]
    rfl

end Engine

end ServoPulse
