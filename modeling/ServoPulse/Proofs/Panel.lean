import Mathlib.Logic.Relation
import ServoPulse.Pins.Outputs
import ServoPulse.Proofs.Endings
import ServoPulse.Proofs.Replay
import ServoPulse.Stm32.Chip

/-!
# The panel of an engine

What an engine on any board holds besides its timer, its pins and its pending falls is its `Panel`:
the channels, whether it is started, whether a channel moves, and the count of periods. The board
reaches the panel through the eligible pins alone, which do not change (`FixedPins`).

Most of what an engine does leaves the panel alone, so what is left is short (`Panel.Step`): a
period looks at the channels and moves them, a command writes to one of them, a start lists others
and a stop looks at them once more. Every run of an engine, on any board, is a run of such steps
(`Events.panel_steps`). That a program may trap makes no difference: what it has done by then are
steps as well. Only a start that traps is not part of a run, since it leaves the timer on and the
engine not started.
-/

namespace ServoPulse

/-! ### Boards with a fixed set of pins -/

/-- A board of which no operation changes the eligible pins. -/
class FixedPins (β : Type) [Board β] : Prop where
  startTimer : ∀ p, Action.Leaves (σ := β) Board.eligible p Board.startTimer
  stopTimer : ∀ b : β, Board.eligible (Board.stopTimer b) = Board.eligible b
  armCompare : ∀ p value, Action.Leaves (σ := β) Board.eligible p (Board.armCompare value)
  disarmCompare : ∀ b : β, Board.eligible (Board.disarmCompare b) = Board.eligible b
  takeOverflow : ∀ b : β, Board.eligible (Board.takeOverflow b).2 = Board.eligible b
  takeCompare : ∀ b : β, Board.eligible (Board.takeCompare b).2 = Board.eligible b
  configureOutput : ∀ pin (b : β), Board.eligible (Board.configureOutput pin b) = Board.eligible b
  setHigh : ∀ p pin, Action.Leaves (σ := β) Board.eligible p (Board.setHigh pin)
  setLow : ∀ p pin, Action.Leaves (σ := β) Board.eligible p (Board.setLow pin)

/-- A bank of pins of which no operation changes the eligible ones. -/
class FixedBank (P : Type) [PinBank P] : Prop where
  configureOutput : ∀ pin (r : P), PinBank.eligible (PinBank.configureOutput pin r) =
    PinBank.eligible r
  setHigh : ∀ p now pin, Action.Leaves (σ := P) PinBank.eligible p (PinBank.setHigh now pin)
  setLow : ∀ p now pin, Action.Leaves (σ := P) PinBank.eligible p (PinBank.setLow now pin)

instance : FixedBank PinRecorder where
  configureOutput _ _ := rfl
  setHigh _ _ _ _ := Action.ends_iff_forall_endsIn.2 fun _ _ => rfl
  setLow _ _ _ _ := Action.ends_iff_forall_endsIn.2 fun _ _ => rfl

instance : FixedBank OutputBank where
  configureOutput pin b := b.ids_drive pin false
  setHigh _ _ pin := .modify fun b => b.ids_drive pin true
  setLow _ _ pin := .modify fun b => b.ids_drive pin false

instance {P : Type} [PinBank P] [FixedBank P] : FixedBank (Scope P) where
  configureOutput pin s := FixedBank.configureOutput pin s.pins
  setHigh p now pin := .zoom fun s _ h => (FixedBank.setHigh p now pin s.pins).of_endsIn h
  setLow p now pin := .zoom fun s _ h => (FixedBank.setLow p now pin s.pins).of_endsIn h

namespace Bench

variable {P : Type} [PinBank P] {p : Profile}

theorem leaves_onClock {α : Type} (x : Action Clock α) :
    Action.Leaves (σ := Bench P) Board.eligible p (onClock x) :=
  .zoom fun _ _ _ => rfl

theorem leaves_onPins {x : Action P Unit} (h : Action.Leaves PinBank.eligible p x) :
    Action.Leaves (σ := Bench P) Board.eligible p (onPins x) :=
  .zoom fun b _ h_end => (h b.pins).of_endsIn h_end

theorem leaves_armCompare (value : Count) :
    Action.Leaves (σ := Bench P) Board.eligible p (armCompare value) := by
  unfold armCompare
  refine .bind (.modify fun _ => rfl) fun _ => .get_bind fun b => ?_
  exact .bind (.liftM (b.clock.after b.lag)) fun limit => leaves_onClock (Clock.passUntil limit)

instance [FixedBank P] : FixedPins (Bench P) where
  startTimer _ := leaves_onClock _
  stopTimer _ := rfl
  armCompare _ value := leaves_armCompare value
  disarmCompare _ := rfl
  takeOverflow _ := rfl
  takeCompare _ := rfl
  configureOutput pin b := FixedBank.configureOutput pin b.pins
  setHigh _ _ := .get_bind fun _ => leaves_onPins (FixedBank.setHigh _ _ _)
  setLow _ _ := .get_bind fun _ => leaves_onPins (FixedBank.setLow _ _ _)

end Bench

theorem Chip.ids_drive (pin : Nat) (level : Bool) (c : Chip) :
    (c.drive pin level).gpio.ids = c.gpio.ids := by
  unfold drive Gpio.drive
  cases c.gpio.locate? pin <;> rfl

instance : FixedPins Chip where
  startTimer _ := .modify fun _ => rfl
  stopTimer _ := rfl
  armCompare _ _ := .modify fun _ => rfl
  disarmCompare _ := rfl
  takeOverflow _ := rfl
  takeCompare _ := rfl
  configureOutput _ _ := rfl
  setHigh _ pin := .modify fun c => congrArg Vector.toList (c.ids_drive pin true)
  setLow _ pin := .modify fun c => congrArg Vector.toList (c.ids_drive pin false)

/-! ### The panel and what may happen to it -/

/-- An engine without its timer, its pins and its pending falls. -/
structure Panel where
  /-- The pins that the board can pulse. -/
  eligible : List Nat
  config : Config
  table : ChannelTable
  started : Bool
  moving : Bool
  /-- Whether the timer is stopped. -/
  halted : Bool
  periods : UInt32

namespace Panel

/-- The panel after the start of a period has looked at the channels and moved them. -/
def advanced (t : Panel) : Panel := { t with moving := t.table.anyMoving, table := t.table.step }

/-- The panel after the start of a period. -/
def begun (t : Panel) : Panel := { t.advanced with periods := t.periods + 1 }

/-- The panel after a channel was given a target. -/
def retargeted (t : Panel) (servo ticks : Nat) : Panel :=
  let table := t.table.modify servo (·.aim ticks)
  { t with
    table
    moving :=
      if (table.get? servo).any Channel.isMoving then true
      else if t.started then t.moving
      else table.anyMoving }

/-- The panel after a channel was given a speed. -/
def limited (t : Panel) (servo speed : Nat) : Panel :=
  { t with table := t.table.modify servo ({ · with speed }) }

/-- The panel with new channels, at rest. -/
def relisted (t : Panel) (pins : List Nat) : Panel :=
  { t with table := .assign pins, moving := false }

/-- The panel of an engine that was shut down. -/
def shut (t : Panel) : Panel :=
  { t with started := false, moving := t.table.anyMoving, halted := true }

/-- What may happen to a panel. -/
inductive Step (t : Panel) : Panel → Prop
  | advance (h : t.halted = false) : Step t t.advanced
  | count : Step t { t with periods := t.periods + 1 }
  | retarget {servo ticks : Nat} (h : ticks ≤ maxTargetTicks) : Step t (t.retargeted servo ticks)
  | limit {servo speed : Nat} : Step t (t.limited servo speed)
  | relist {pins : List Nat} (h : checkPins t.eligible pins = .ok ()) : Step t (t.relisted pins)
  | look : Step t { t with moving := t.table.anyMoving }
  | launch : Step t { t with started := true, halted := false }
  | shutDown : Step t t.shut

/-- Any number of such steps. -/
abbrev Steps : Panel → Panel → Prop := Relation.ReflTransGen Step

theorem steps_of_eq {t t' : Panel} (h : t' = t) : Steps t t' := h ▸ .refl

theorem steps_begun {t : Panel} (h : t.halted = false) : Steps t t.begun :=
  .tail (.single (.advance h)) .count

end Panel

namespace Engine

variable {β : Type} [Board β] {p : Profile} {e e' : Engine β}

/-- What the engine holds besides its timer, its pins and its pending falls. -/
def panel (e : Engine β) : Panel where
  eligible := Board.eligible e.board
  config := e.config
  table := e.table
  started := e.started
  moving := e.moving
  halted := decide (e.phase = .halted)
  periods := e.periods

/-- The board reaches the panel through its eligible pins alone. -/
theorem panel_board {b : β} (h : Board.eligible b = Board.eligible e.board) :
    ({ e with board := b } : Engine β).panel = e.panel :=
  congrArg (fun eligible => { e.panel with eligible }) h

theorem leaves_onBoard {α : Type} {x : Action β α} (h : Action.Leaves Board.eligible p x) :
    Action.Leaves panel p (onBoard x) :=
  .zoom fun e _ h_end => panel_board ((h e.board).of_endsIn h_end)

theorem leaves_changeBoard {f : β → β} (h : ∀ b, Board.eligible (f b) = Board.eligible b) :
    Action.Leaves (σ := Engine β) panel p (changeBoard f) :=
  .modify fun e => panel_board (h e.board)

variable [FixedPins β]

/-! ### The interrupt -/

theorem leaves_lower (f : Fall) (rest : List Fall) :
    Action.Leaves (σ := Engine β) panel p (lower f rest) :=
  .bind (.modify fun _ => rfl) fun _ => leaves_onBoard (FixedPins.setLow p f.pin)

theorem leaves_lowerAll (events : List Fall) :
    Action.Leaves (σ := Engine β) panel p (lowerAll events) := by
  induction events with
  | nil => exact .pure _
  | cons f rest ih => exact .bind (leaves_lower f rest) fun _ => ih

theorem leaves_raise (servo : Nat) (c : Channel) :
    Action.Leaves (σ := Engine β) panel p (raise servo c) := by
  refine .ite (.get_bind fun e => ?_) (.pure _)
  cases e.queue.push ⟨c.position, servo, c.pin⟩ with
  | error => exact .pure _
  | ok queue =>
    exact .bind (.modify fun _ => rfl) fun _ => leaves_onBoard (FixedPins.setHigh p c.pin)

/-- Settling leaves the panel of a running engine alone: it may say that the pulses are over, but
never that the timer is stopped. -/
theorem ends_settle {now : Nat} {events : List Fall} (h_on : e.panel.halted = false) :
    Action.Ends p (settle now events) e (fun _ e' => e'.panel = e.panel)
      fun e' => e'.panel = e.panel := by
  -- induction on the queue, none of whose rounds moves the panel
  induction events generalizing now e with
  | nil =>
    -- the phase is that of an engine with nothing to lower, which is not halted
    refine .modify_bind ?_
    change Panel.mk _ e.config e.table e.started e.moving false e.periods = e.panel
    rw [FixedPins.disarmCompare, ← h_on]
    rfl
  | cons f rest ih =>
    -- a fall that is due is lowered, and the rest settled from there
    have h_lowered {t : Engine β} {now : Nat} (h_t : t.panel = e.panel) :
        Action.Ends p (do lower f rest; settle now rest) t (fun _ e' => e'.panel = e.panel)
          fun e' => e'.panel = e.panel := by
      rw [← h_t]
      refine (leaves_lower f rest t).bind fun _ u h_u => ?_
      rw [← h_u]
      exact ih (by rw [h_u, h_t, h_on])
    refine .ite (fun _ => h_lowered rfl) fun _ => .get_bind (.ite (fun _ => ?_) fun _ => ?_)
    · -- a fall of a later turn disarms, one of this turn is armed for
      exact leaves_changeBoard FixedPins.disarmCompare e
    · refine (leaves_onBoard (FixedPins.armCompare p f.compareValue) e).bind fun _ t h_t => ?_
      refine .get_bind (.liftM_bind (fun later => ?_) h_t)
      exact .ite (fun _ => h_lowered h_t) fun _ => .pure h_t

theorem ends_fallDue (h_on : e.panel.halted = false) :
    Action.Ends p fallDue e (fun _ e' => e'.panel = e.panel) fun e' => e'.panel = e.panel :=
  .get_bind (.liftM_bind (fun _ => ends_settle h_on) rfl)

/-- The start of a period moves the channels once, and counts the period last. -/
theorem ends_beginPeriod (h_on : e.panel.halted = false) :
    Action.Ends p beginPeriod e (fun _ e' => e'.panel = e.panel.begun)
      fun e' => e'.panel = e.panel ∨ e'.panel = e.panel.advanced := by
  refine .get_bind (.bind ((leaves_lowerAll e.queue.events e).mono (fun _ _ h => h) fun _ => .inl)
    fun _ t h_t => .modify_bind (.get_bind ?_))
  -- the step of the table is the one change that the period makes
  have h_advanced : ({ t with moving := t.table.anyMoving, table := t.table.step } : Engine β).panel
      = e.panel.advanced := congrArg Panel.advanced h_t
  refine .bind (((Action.Leaves.forM fun c _ => leaves_raise c.2 c.1) _).mono
    (fun _ u h_u => h_u.trans h_advanced) fun u h_u => .inr (h_u.trans h_advanced))
    fun _ u h_u => ?_
  -- an engine that begins a period is running and goes on running
  have h_phase :
      decide ((if u.queue.isEmpty then Phase.idle else .emitting) = .halted) = false := by
    split <;> rfl
  change ({ u.panel with
    periods := u.panel.periods + 1
    halted := decide ((if u.queue.isEmpty then Phase.idle else .emitting) = .halted) } : Panel) = _
  rw [h_u, h_phase, ← h_on]
  rfl

theorem ends_turn (h_on : e.panel.halted = false) :
    Action.Ends p turn e (fun _ e' => e'.panel = e.panel ∨ e'.panel = e.panel.begun)
      fun e' => e'.panel = e.panel ∨ e'.panel = e.panel.advanced := by
  refine .modify_bind (.get_bind (.ite (fun _ => ?_) fun _ => .pure (.inl rfl)))
  exact (ends_beginPeriod (e := { e with wrap := 0 }) h_on).mono (fun _ _ => .inr) fun _ h => h

theorem leaves_takeOverflow : Action.Leaves (σ := Engine β) panel p takeOverflow := by
  intro e
  change ({ e with board := (Board.takeOverflow e.board).2 } : Engine β).panel = e.panel
  exact panel_board (FixedPins.takeOverflow e.board)

theorem leaves_takeCompare : Action.Leaves (σ := Engine β) panel p takeCompare := by
  intro e
  change ({ e with board := (Board.takeCompare e.board).2 } : Engine β).panel = e.panel
  exact panel_board (FixedPins.takeCompare e.board)

/-- **The interrupt.** At most it begins a period, and only on an engine that runs. -/
theorem ends_interrupt (e : Engine β) :
    Action.Ends p interrupt e
      (fun _ e' => e'.panel = e.panel ∨ e.panel.halted = false ∧ e'.panel = e.panel.begun)
      fun e' => e'.panel = e.panel ∨
        e.panel.halted = false ∧ (e'.panel = e.panel.advanced ∨ e'.panel = e.panel.begun) := by
  -- the flags are read first, and reading them moves nothing
  refine .bind ((leaves_takeOverflow e).mono (fun _ _ h => h) fun _ => .inl)
    fun overflow t h_t => ?_
  refine .bind
    ((leaves_takeCompare t).mono (fun _ _ h => h.trans h_t) fun _ h => .inl (h.trans h_t))
    fun compare u h_u => ?_
  -- a halted engine changes nothing further
  refine .get_bind (.ite (fun h_running => ?_) fun _ => .pure (.inl h_u))
  have h_on : e.panel.halted = false := h_u ▸ decide_eq_false h_running
  -- settling adds nothing to what the overflow has done, if there was one
  have h_fall {v : Engine β} {flag : Bool} (h_v : v.panel = e.panel ∨ v.panel = e.panel.begun) :
      Action.Ends p (if flag then fallDue else pure ()) v
        (fun _ e' => e'.panel = e.panel ∨ e.panel.halted = false ∧ e'.panel = e.panel.begun)
        fun e' => e'.panel = e.panel ∨
          e.panel.halted = false ∧ (e'.panel = e.panel.advanced ∨ e'.panel = e.panel.begun) := by
    have h_v_on : v.panel.halted = false := by
      rcases h_v with h_v | h_v
      · rw [h_v, h_on]
      · rw [h_v]
        exact h_on
    refine .ite (fun _ => (ends_fallDue h_v_on).mono (fun _ e' h => ?_) fun e' h => ?_) fun _ => ?_
    · exact h_v.imp h.trans fun h_v => ⟨h_on, h.trans h_v⟩
    · exact h_v.imp h.trans fun h_v => ⟨h_on, .inr (h.trans h_v)⟩
    · exact .pure (h_v.imp_right fun h_v => ⟨h_on, h_v⟩)
  cases overflow with
  | false => exact h_fall (.inl h_u)
  | true =>
    -- the turn is counted first, and may end the period
    refine .bind ((ends_turn (h_u ▸ h_on)).mono (fun _ v h_v => ?_) fun v h_v => ?_)
      fun _ v h_v => h_fall h_v
    · rwa [h_u] at h_v
    · rw [h_u] at h_v
      exact h_v.imp_right fun h_v => ⟨h_on, .inl h_v⟩

theorem panel_steps_interrupt (h : interrupt.EndsIn p e e') : Panel.Steps e.panel e'.panel := by
  -- what the interrupt leaves is at most two steps away
  refine Action.Ends.of_endsIn (E := fun t => Panel.Steps e.panel t.panel)
    ((ends_interrupt e).mono (fun _ t h_t => ?_) fun t h_t => ?_) h
  · rcases h_t with h_t | ⟨h_on, h_t⟩
    · exact Panel.steps_of_eq h_t
    · exact h_t ▸ Panel.steps_begun h_on
  · rcases h_t with h_t | ⟨h_on, h_t | h_t⟩
    · exact Panel.steps_of_eq h_t
    · exact h_t ▸ .single (.advance h_on)
    · exact h_t ▸ Panel.steps_begun h_on

/-- Where the interrupt has counted a period, it has begun one. -/
theorem panel_of_interrupt_periods (h : interrupt.EndsIn p e e')
    (h_periods : e'.periods ≠ e.periods) :
    e'.panel = e.panel.begun := by
  -- the count of periods tells the two cases apart
  have h_same {t : Engine β} {u : Panel} (h_t : t.panel = u) (h_u : u.periods = e.periods)
      (h_ne : t.periods ≠ e.periods) : t.panel = e.panel.begun :=
    absurd ((congrArg Panel.periods h_t).trans h_u) h_ne
  refine Action.Ends.of_endsIn (E := fun t => t.periods ≠ e.periods → t.panel = e.panel.begun)
    ((ends_interrupt e).mono (fun _ t h_t => ?_) fun t h_t => ?_) h h_periods
  · rcases h_t with h_t | ⟨-, h_t⟩
    · exact h_same h_t rfl
    · exact fun _ => h_t
  · rcases h_t with h_t | ⟨-, h_t | h_t⟩
    · exact h_same h_t rfl
    · exact h_same h_t rfl
    · exact fun _ => h_t

/-! ### The calls -/

omit [FixedPins β] in
theorem panel_refreshMoving (servo : Nat) (e : Engine β) :
    (e.refreshMoving servo).panel = { e.panel with
      moving := if (e.table.get? servo).any Channel.isMoving then true
        else if e.started then e.moving
        else e.table.anyMoving } := by
  unfold refreshMoving channel?
  -- the flag is set when the channel moves, and the whole table is looked at otherwise
  by_cases h_moving : (e.table.get? servo).any Channel.isMoving = true
  · rw [if_pos h_moving, if_pos h_moving]
    rfl
  · rw [if_neg h_moving, if_neg h_moving]
    split <;> rfl

omit [FixedPins β] in
/-- **Commands.** A command writes to its channel, or changes nothing. -/
theorem panel_steps_exec {k : Command} (h : k.exec.EndsIn p e e') :
    Panel.Steps e.panel e'.panel := by
  -- both targets aim at something and look at the motion once more
  have h_target {servo ticks : Nat} (h : (setTargetTicks servo ticks).EndsIn p e e') :
      Panel.Steps e.panel e'.panel := by
    rcases endsIn_servo? h with rfl | rfl
    · exact .refl
    · rw [panel_refreshMoving]
      exact .single (.retarget (clampTicks_le ticks))
  cases k with
  | targetTicks servo ticks => exact h_target h
  | targetUs servo us => exact h_target h
  | speed servo limit =>
    -- a speed changes the panel without aiming at anything
    rcases endsIn_servo? h with rfl | rfl
    · exact .refl
    · exact .single .limit

theorem leaves_configureOutputs : Action.Leaves (σ := Engine β) panel p configureOutputs := by
  refine .get_bind fun e => .forM fun c _ => .get_bind fun t => ?_
  refine .ite (.pure _) ?_
  exact leaves_changeBoard (FixedPins.configureOutput c.pin)

/-- New channels are listed at rest. -/
theorem ends_reconfigure (pins : List Nat) :
    Action.Ends p (reconfigure pins) e (fun _ e' => e'.panel = e.panel.relisted pins)
      fun _ => True := by
  refine .modify_bind (.bind ((leaves_configureOutputs _).mono (fun _ _ h => h) fun _ _ => trivial)
    fun _ t h_t => ?_)
  exact congrArg (fun t : Panel => { t with moving := false }) h_t

theorem ends_launch :
    Action.Ends p launch e
      (fun _ e' => e'.panel = { e.panel with started := true, halted := false }) fun _ => True := by
  refine .bind (Q := fun _ t => t.panel = { e.panel with halted := false }) (.modify_bind ?_)
    fun _ t h_t => ?_
  · exact (leaves_onBoard (FixedPins.startTimer p) _).mono (fun _ _ h => h) fun _ _ => trivial
  · exact congrArg (fun t : Panel => { t with started := true }) h_t

/-- **Starting.** A start lists channels, or looks at those it has, and may then start the timer. -/
theorem panel_steps_start {pins? : Option (List Nat)} {r : Except StartError Unit}
    (h : (start pins?).run p e = .ok r e') : Panel.Steps e.panel e'.panel := by
  -- launching is the last step, and what leads to it depends on the two forms of start
  have h_launch {t : Engine β} (h_t : Panel.Steps e.panel t.panel) :
      Action.Ends p launch t (fun _ e' => Panel.Steps e.panel e'.panel) fun _ => True :=
    ends_launch.mono (fun _ u h_u => h_t.tail (h_u ▸ .launch)) fun _ h => h
  have h_ends : Action.Ends p (start pins?) e (fun _ e' => Panel.Steps e.panel e'.panel)
      fun _ => True := by
    refine .get_bind ?_
    cases h_check : e.checkStart pins? with
    | error error =>
      -- a start that is refused takes no step
      exact .pure Relation.ReflTransGen.refl
    | ok _ =>
      cases pins? with
      | none =>
        -- the whole table is looked at again, and then the timer starts
        refine .ite (fun _ => .pure Relation.ReflTransGen.refl) fun _ => .modify_bind ?_
        exact .bind (h_launch (.single .look)) fun _ t h_t => .pure h_t
      | some pins =>
        -- the new list becomes the table, and only then the timer starts
        have h_list : Panel.Steps e.panel (e.panel.relisted pins) :=
          .single (.relist ((checkStart_ok h_check).2 pins rfl))
        refine .bind (ends_reconfigure pins) fun _ t h_t => .ite (fun _ => ?_) fun _ => ?_
        · exact .pure (h_t ▸ h_list)
        · exact .bind (h_launch (h_t ▸ h_list)) fun _ u h_u => .pure h_u
  exact h_ends.of_run h

/-- Shutting down ends with a look at the channels. -/
theorem ends_shutDown :
    Action.Ends p shutDown e (fun _ e' => e'.panel = e.panel.shut)
      fun e' => e'.panel = e.panel := by
  -- the panel halts first, and the fields of the engine are set after that
  refine .bind (Q := fun _ t => t.panel = { e.panel with halted := true }) ?_ fun _ t h_t => ?_
  · refine .bind (leaves_changeBoard FixedPins.stopTimer e)
      fun _ t h_t => .modify_bind (.get_bind ?_)
    refine .bind (((Action.Leaves.forM fun c _ => leaves_onBoard (FixedPins.setLow p c.pin)) _).mono
      (fun _ _ h => h.trans h_t) fun _ h => h.trans h_t) fun _ u h_u => ?_
    exact congrArg (fun t : Panel => { t with halted := true }) h_u
  · exact congrArg (fun t : Panel => { t with started := false, moving := t.table.anyMoving }) h_t

/-! ### Runs on any board -/

/-- What happens to an engine between the calls: the board changes by itself, as it does when time
passes, or the interrupt is served. -/
inductive Between (p : Profile) (e : Engine β) : Engine β → Prop
  | board {b : β} (h : Board.eligible b = Board.eligible e.board) :
    Between p e { e with board := b }
  | interrupt {e' : Engine β} (h : interrupt.EndsIn p e e') : Between p e e'

/-- One event in a run of an engine. A trap does not end the run, unless it is in a start. A stop
waits in any way that only lets happen what may happen between the calls. -/
inductive Event (p : Profile) (e : Engine β) : Engine β → Prop
  | between {e' : Engine β} (h : Between p e e') : Event p e e'
  | start {pins? : Option (List Nat)} {r : Except StartError Unit} {e' : Engine β}
      (h : (start pins?).run p e = .ok r e') : Event p e e'
  | command {k : Command} {e' : Engine β} (h : k.exec.EndsIn p e e') : Event p e e'
  | stop {wait : Nat → Action (Engine β) Unit} {e' : Engine β}
      (h_wait : ∀ k s s', (wait k).EndsIn p s s' → Relation.ReflTransGen (Between p) s s')
      (h : (stop wait).EndsIn p e e') : Event p e e'

/-- A run of an engine on any board. -/
abbrev Events (p : Profile) : Engine β → Engine β → Prop := Relation.ReflTransGen (Event p)

theorem Between.panel_steps (h : Between p e e') : Panel.Steps e.panel e'.panel := by
  cases h with
  | board h => exact Panel.steps_of_eq (panel_board h)
  | interrupt h => exact panel_steps_interrupt h

/-- **Stopping.** A stop waits for a while and may then shut the engine down. -/
theorem panel_steps_stop {wait : Nat → Action (Engine β) Unit}
    (h_wait : ∀ k s s', (wait k).EndsIn p s s' → Panel.Steps s.panel s'.panel)
    (h : (stop wait).EndsIn p e e') : Panel.Steps e.panel e'.panel := by
  -- the shutdown is one step more, after those of the waits
  have h_down {t : Engine β} (h_t : Panel.Steps e.panel t.panel) :
      Action.Ends p shutDown t (fun _ e' => Panel.Steps e.panel e'.panel)
        fun e' => Panel.Steps e.panel e'.panel :=
    ends_shutDown.mono (fun _ u h_u => h_t.tail (h_u ▸ .shutDown)) fun u h_u => h_u ▸ h_t
  have h_await {poll timeout fuel polls waited : Nat} {t : Engine β}
      (h_t : Panel.Steps e.panel t.panel) :
      Action.Ends p (awaitFalls wait poll timeout fuel polls waited) t
        (fun _ e' => Panel.Steps e.panel e'.panel) fun e' => Panel.Steps e.panel e'.panel := by
    -- induction on the fuel, with the steps so far in hand
    induction fuel generalizing polls waited t with
    | zero => exact .bind (h_down h_t) fun _ u h_u => .pure h_u
    | succ fuel ih =>
      refine .get_bind (.ite (fun _ => ?_) fun _ => .bind (h_down h_t) fun _ u h_u => .pure h_u)
      refine .bind (Action.ends_iff_forall_endsIn.2 fun u h_u => ?_) fun _ u h_u => ih h_u
      exact h_t.trans (h_wait polls t u h_u)
  refine Action.Ends.of_endsIn (E := fun t => Panel.Steps e.panel t.panel) (.get_bind ?_) h
  exact .ite (fun _ => h_await .refl) fun _ => .pure Relation.ReflTransGen.refl

theorem Event.panel_steps (h : Event p e e') : Panel.Steps e.panel e'.panel := by
  cases h with
  | between h => exact h.panel_steps
  | start h => exact panel_steps_start h
  | command h => exact panel_steps_exec h
  | stop h_wait h =>
    refine panel_steps_stop (fun k s s' h_end => ?_) h
    exact (h_wait k s s' h_end).lift' panel fun _ _ h_between => h_between.panel_steps

/-- **Runs.** A run of an engine is a run of its panel, whatever the board does. -/
theorem Events.panel_steps (h : Events p e e') : Panel.Steps e.panel e'.panel :=
  h.lift' panel fun _ _ h_event => h_event.panel_steps

section Replay

variable {P : Type} [PinBank P] [DecidableEq P] {e e' : Engine (Bench P)}

theorem event_of_next? {op : Op} (h : op.next? p e = some e') : Event p e e' := by
  -- each operation is one event, as its own lemma says
  cases op with
  | advance ticks =>
    obtain ⟨⟨event, t⟩, h_result, rfl⟩ := Option.map_eq_some_iff.1 h
    obtain ⟨limit, clock, -, rfl⟩ := run_advance_eq_ok (run_of_agreed? h_result p)
    exact .between (.board rfl)
  | interrupt =>
    obtain ⟨⟨⟨⟩, t⟩, h_result, rfl⟩ := Option.map_eq_some_iff.1 h
    exact .between (.interrupt (.inl ⟨⟨⟩, run_of_agreed? h_result p⟩))
  | start pins? =>
    obtain ⟨⟨r, t⟩, h_result, rfl⟩ := Option.map_eq_some_iff.1 h
    exact .start (Action.run_eq_ok_of_result? h_result)
  | command k =>
    obtain ⟨⟨⟨⟩, t⟩, h_result, rfl⟩ := Option.map_eq_some_iff.1 h
    exact .command (.inl ⟨⟨⟩, Action.run_eq_ok_of_result? h_result⟩)

/-- What was replayed is a run on a bench. -/
theorem events_of_replay? {ops : List Op} (h : replay? p ops e = some e') : Events p e e' := by
  induction ops generalizing e with
  | nil =>
    cases h
    exact .refl
  | cons op ops ih =>
    obtain ⟨t, h_first, h_rest⟩ := Option.bind_eq_some_iff.1 h
    exact .head (event_of_next? h_first) (ih h_rest)

end Replay

end Engine

end ServoPulse
