import ServoPulse.Proofs.Logs

/-!
# Invariants of a board

An engine reaches its board through the operations of the board alone. So what each of these keeps
is kept by everything that an engine does, and where an operation of an engine traps, an operation
of its board has trapped (`BoardStable`, `Operation.ends`). An interrupt needs fewer of them, and of
the rest of the engine it writes little (`Engine.ServiceStable`). Along with its board an engine
keeps two bounds of its own (`Holds`): its count of turns fits in eight bits, and it has at most six
channels.

The operations are given as programs. While a stop waits, it may look at the engine, let its board
change by itself, as far as the board allows, and serve interrupts (`Wait`).
-/

namespace ServoPulse

/-- Where `J` holds of a board, every operation on it returns to where `J` holds or traps where `E`
holds. -/
structure BoardStable {β : Type} [Board β] (p : Profile) (J E : β → Prop) : Prop where
  startTimer : Action.Confined J E p Board.startTimer
  stopTimer : ∀ b, J b → J (Board.stopTimer b)
  counter : ∀ b trap, J b → (Board.counter b).run p = .error trap → E b
  armCompare : ∀ value, Action.Confined J E p (Board.armCompare value)
  disarmCompare : ∀ b, J b → J (Board.disarmCompare b)
  takeOverflow : ∀ b, J b → J (Board.takeOverflow b).2
  takeCompare : ∀ b, J b → J (Board.takeCompare b).2
  configureOutput : ∀ pin b, J b → J (Board.configureOutput pin b)
  setHigh : ∀ pin, Action.Confined J E p (Board.setHigh pin)
  setLow : ∀ pin, Action.Confined J E p (Board.setLow pin)

/-- What follows from what holds where an operation traps. -/
theorem BoardStable.mono {β : Type} [Board β] {p : Profile} {J E E' : β → Prop}
    (hS : BoardStable p J E) (h : ∀ b, E b → E' b) : BoardStable p J E' where
  startTimer := hS.startTimer.mono h
  stopTimer := hS.stopTimer
  counter b trap h_b h_run := h b (hS.counter b trap h_b h_run)
  armCompare value := (hS.armCompare value).mono h
  disarmCompare := hS.disarmCompare
  takeOverflow := hS.takeOverflow
  takeCompare := hS.takeCompare
  configureOutput := hS.configureOutput
  setHigh pin := (hS.setHigh pin).mono h
  setLow pin := (hS.setLow pin).mono h

namespace Engine

variable {β : Type} {p : Profile} {J E : β → Prop}

/-- An engine on a board of which `J` holds, with at most 255 turns counted and at most six
channels. -/
structure Holds (J : β → Prop) (e : Engine β) : Prop where
  board : J e.board
  wrap_le : e.wrap ≤ 255
  count_le : e.table.count ≤ maxServos

theorem confined_onBoard {α : Type} {x : Action β α} (h : Action.Confined J E p x) :
    Action.Confined (Holds J) (Holds E) p (onBoard x) := by
  intro e h_e
  refine .zoom ((h e.board h_e.board).mono (fun _ b h_b => ?_) fun b h_b => ?_)
  · exact ⟨h_b, h_e.wrap_le, h_e.count_le⟩
  · exact ⟨h_b, h_e.wrap_le, h_e.count_le⟩

theorem confined_changeBoard {f : β → β} (h : ∀ b, J b → J (f b)) :
    Action.Confined (Holds J) (Holds E) p (changeBoard f) :=
  .modify fun e h_e => ⟨h e.board h_e.board, h_e.wrap_le, h_e.count_le⟩

end Engine

/-! ### What an interrupt does -/

namespace Engine

variable {β : Type} [Board β] {p : Profile} {I E : Engine β → Prop} {e : Engine β}

/-- What an interrupt may write of an engine besides its board. -/
structure Booked (e e' : Engine β) : Prop where
  board_eq : e'.board = e.board
  wrap_le : e'.wrap = e.wrap ∨ e'.wrap ≤ 255
  count_eq : e'.table.count = e.table.count

/-- Where `I` holds of an engine, each thing that an interrupt does returns to where `I` holds or
traps where `E` holds. -/
structure ServiceStable (p : Profile) (I E : Engine β → Prop) : Prop where
  setHigh : ∀ pin, Action.Confined I E p (onBoard (Board.setHigh pin))
  setLow : ∀ pin, Action.Confined I E p (onBoard (Board.setLow pin))
  armCompare : ∀ value, Action.Confined I E p (onBoard (Board.armCompare value))
  disarmCompare : ∀ e, I e → I { e with board := Board.disarmCompare e.board }
  takeOverflow : ∀ e, I e → I { e with board := (Board.takeOverflow e.board).2 }
  takeCompare : ∀ e, I e → I { e with board := (Board.takeCompare e.board).2 }
  counter : ∀ e trap, I e → (Board.counter e.board).run p = .error trap → E e
  book : ∀ e e', I e → Booked e e' → I e'

namespace ServiceStable

theorem lower (hS : ServiceStable p I E) (f : Fall) (rest : List Fall) :
    Action.Confined I E p (Engine.lower f rest) :=
  .bind (.modify fun e h => hS.book e _ h ⟨rfl, .inl rfl, rfl⟩) fun _ => hS.setLow f.pin

theorem lowerAll (hS : ServiceStable p I E) (events : List Fall) :
    Action.Confined I E p (Engine.lowerAll events) := by
  induction events with
  | nil => exact .pure _
  | cons f rest ih => exact .bind (hS.lower f rest) fun _ => ih

/-- Only the counter can trap when the time is looked at. -/
theorem elapsed (hS : ServiceStable p I E) (trap : Trap) (h : I e)
    (h_run : e.elapsed.run p = .error trap) : E e :=
  hS.counter e trap h (Checked.run_map_eq_error_iff.1 h_run)

theorem settle (hS : ServiceStable p I E) (now : Nat) (events : List Fall) :
    Action.Confined I E p (Engine.settle now events) := by
  have h_disarm : Action.Confined I E p (changeBoard Board.disarmCompare) :=
    .modify hS.disarmCompare
  induction events generalizing now with
  | nil =>
    -- the phase is the engine's own, and the board does not see it
    exact .bind h_disarm fun _ => .modify fun e h => hS.book e _ h ⟨rfl, .inl rfl, rfl⟩
  | cons f rest ih =>
    have h_lowered (now : Nat) :
        Action.Confined I E p (do Engine.lower f rest; Engine.settle now rest) :=
      .bind (hS.lower f rest) fun _ => ih now
    -- due, for a later turn, or to be armed for
    refine .ite (h_lowered now) (.get_bind fun e => .ite h_disarm ?_)
    refine .bind (hS.armCompare f.compareValue) fun _ => ?_
    -- the clock is read once more, since the fall may have come due
    exact .get_liftM_bind (fun _ later => .ite (h_lowered later) (.pure _)) fun _ => hS.elapsed

theorem fallDue (hS : ServiceStable p I E) : Action.Confined I E p Engine.fallDue :=
  .get_liftM_bind (fun e now => hS.settle now e.queue.events) fun _ => hS.elapsed

theorem raise (hS : ServiceStable p I E) (servo : Nat) (c : Channel) :
    Action.Confined I E p (Engine.raise servo c) := by
  refine .ite (.get_bind fun e => ?_) (.pure _)
  cases e.queue.push ⟨c.position, servo, c.pin⟩ with
  | error => exact .pure _
  | ok queue =>
    exact .bind (.modify fun e h => hS.book e _ h ⟨rfl, .inl rfl, rfl⟩) fun _ => hS.setHigh c.pin

theorem beginPeriod (hS : ServiceStable p I E) : Action.Confined I E p Engine.beginPeriod := by
  refine .get_bind fun e => .bind (hS.lowerAll e.queue.events) fun _ => ?_
  refine .bind (.modify fun t h => hS.book t _ h ⟨rfl, .inl rfl, rfl⟩)
    fun _ => .get_bind fun t => ?_
  exact .bind (.forM fun c _ => hS.raise c.2 c.1) fun _ =>
    .modify fun u h => hS.book u _ h ⟨rfl, .inl rfl, rfl⟩

theorem turn (hS : ServiceStable p I E) : Action.Confined I E p Engine.turn := by
  intro e h
  have h_counted : min (e.wrap + 1) 255 ≤ 255 := Nat.min_le_right _ _
  refine .modify_bind (.get_bind (.ite (fun _ => ?_) fun _ => .pure ?_))
  · exact hS.beginPeriod _ (hS.book e _ h ⟨rfl, .inr (Nat.zero_le _), rfl⟩)
  · exact hS.book e _ h ⟨rfl, .inr h_counted, rfl⟩

theorem interrupt (hS : ServiceStable p I E) : Action.Confined I E p Engine.interrupt := by
  have h_falls (flag : Bool) : Action.Confined I E p
      (if flag then Engine.fallDue else pure ()) := .ite hS.fallDue (.pure ())
  have h_overflow : Action.Confined I E p Engine.takeOverflow := hS.takeOverflow
  have h_compare : Action.Confined I E p Engine.takeCompare := hS.takeCompare
  refine .bind h_overflow fun overflow => .bind h_compare fun compare => .get_bind fun e => ?_
  refine .ite (.ite (.bind hS.turn fun _ => ?_) ?_) (.pure ())
  · -- an overflow may begin a period first
    exact h_falls (overflow || compare)
  · -- a compare match leaves the periods alone
    exact h_falls (overflow || compare)

end ServiceStable

end Engine

/-! ### What else an engine does -/

namespace BoardStable

open Engine

variable {β : Type} [Board β] {p : Profile} {J E : β → Prop} {e : Engine β}

theorem serviceStable (hS : BoardStable p J E) : ServiceStable p (Holds J) (Holds E) where
  setHigh pin := confined_onBoard (hS.setHigh pin)
  setLow pin := confined_onBoard (hS.setLow pin)
  armCompare value := confined_onBoard (hS.armCompare value)
  disarmCompare e h := ⟨hS.disarmCompare e.board h.board, h.wrap_le, h.count_le⟩
  takeOverflow e h := ⟨hS.takeOverflow e.board h.board, h.wrap_le, h.count_le⟩
  takeCompare e h := ⟨hS.takeCompare e.board h.board, h.wrap_le, h.count_le⟩
  counter e trap h h_run := ⟨hS.counter e.board trap h.board h_run, h.wrap_le, h.count_le⟩
  book e e' h h_book := by
    obtain ⟨h_board, h_wrap, h_count⟩ := h_book
    exact ⟨h_board.symm ▸ h.board, h_wrap.elim (fun h_eq => h_eq ▸ h.wrap_le) id,
      h_count.symm ▸ h.count_le⟩

theorem configureOutputs (hS : BoardStable p J E) :
    Action.Confined (Holds J) (Holds E) p Engine.configureOutputs := by
  refine .get_bind fun e => .forM fun c _ => .get_bind fun t => .ite (.pure _) ?_
  exact confined_changeBoard (hS.configureOutput c.pin)

theorem startPulses (hS : BoardStable p J E) :
    Action.Confined (Holds J) (Holds E) p Engine.startPulses := by
  refine .bind (.modify fun e h => ?_) fun _ => confined_onBoard hS.startTimer
  have h_wraps := e.config.wrapsPerPeriod.toNat_lt
  exact ⟨h.board, by dsimp only; omega, h.count_le⟩

theorem halt (hS : BoardStable p J E) :
    Action.Confined (Holds J) (Holds E) p Engine.halt := by
  refine .bind (confined_changeBoard hS.stopTimer) fun _ => ?_
  refine .bind (.modify fun t h => ⟨h.board, h.wrap_le, h.count_le⟩) fun _ => .get_bind fun t => ?_
  refine .bind (.forM fun c _ => confined_onBoard (hS.setLow c.pin)) fun _ => .modify fun u h => ?_
  exact ⟨h.board, h.wrap_le, h.count_le⟩

/-! ### The calls -/

theorem launch (hS : BoardStable p J E) :
    Action.Confined (Holds J) (Holds E) p Engine.launch :=
  .bind hS.startPulses fun _ => .modify fun _ h => ⟨h.board, h.wrap_le, h.count_le⟩

theorem reconfigure (hS : BoardStable p J E) (pins : List Nat) :
    Action.Confined (Holds J) (Holds E) p (Engine.reconfigure pins) := by
  refine .bind (.modify fun e h => ?_) fun _ => .bind hS.configureOutputs fun _ =>
    .modify fun e h => ⟨h.board, h.wrap_le, h.count_le⟩
  exact ⟨h.board, h.wrap_le, Nat.min_le_right _ _⟩

theorem start (hS : BoardStable p J E) (pins? : Option (List Nat)) :
    Action.Confined (Holds J) (Holds E) p (Engine.start pins?) := by
  refine .get_bind fun e => ?_
  cases e.checkStart pins? with
  | error error =>
    -- a start that is refused leaves everything as it is
    exact .pure _
  | ok _ =>
    cases pins? with
    | none =>
      have h_look : Action.Confined (Holds J) (Holds E) p
          (modify fun t : Engine β => { t with moving := t.table.anyMoving }) :=
        .modify fun t h => ⟨h.board, h.wrap_le, h.count_le⟩
      exact .ite (.pure _) (.bind h_look fun _ => .bind hS.launch fun _ => .pure _)
    | some pins =>
      -- on a running engine a list is all that changes
      refine .bind (hS.reconfigure pins) fun _ => .ite (.pure _) ?_
      exact .bind hS.launch fun _ => .pure _

theorem shutDown (hS : BoardStable p J E) :
    Action.Confined (Holds J) (Holds E) p Engine.shutDown :=
  .bind hS.halt fun _ => .modify fun _ h => ⟨h.board, h.wrap_le, h.count_le⟩

theorem stop (hS : BoardStable p J E) {wait : Nat → Action (Engine β) Unit}
    (h_wait : ∀ k, Action.Confined (Holds J) (Holds E) p (wait k)) :
    Action.Confined (Holds J) (Holds E) p (Engine.stop wait) := by
  have h_await (poll timeout fuel polls waited : Nat) : Action.Confined (Holds J) (Holds E) p
      (awaitFalls wait poll timeout fuel polls waited) := by
    -- each look is a wait and more looks, or the shutdown
    induction fuel generalizing polls waited with
    | zero => exact .bind hS.shutDown fun _ => .pure _
    | succ fuel ih =>
      refine .get_bind fun e => .ite (.bind (h_wait polls) fun _ => ih _ _) ?_
      exact .bind hS.shutDown fun _ => .pure _
  exact .get_bind fun e => .ite (h_await _ _ _ _ _) (.pure _)

end BoardStable

/-! ### Servo numbers -/

namespace Engine

variable {β : Type} {p : Profile} {J : β → Prop} {e : Engine β} {servo : Nat} {trap : Trap}

/-- Looking a servo up traps only where it is not configured. -/
theorem Holds.count_le_of_servo? (h : Holds J e)
    (h_run : (e.servo? servo).run p = .error trap) : e.servoCount ≤ servo := by
  refine Nat.le_of_not_lt fun h_lt => ?_
  have h_six : servo < maxServos := Nat.lt_of_lt_of_le h_lt h.count_le
  have h_some : e.channel? servo = some e.table.slots[servo] :=
    (if_pos h_lt).trans (Vector.getElem?_eq_getElem h_six)
  rw [run_servo?_of_some h_some] at h_run
  cases h_run

/-- A command that traps names a servo that is not configured. -/
theorem Holds.ends_exec {E : Engine β → Prop} (h : Holds J e) (k : Command)
    (h_E : e.servoCount ≤ k.servo → E e) : Action.Ends p k.exec e (fun _ => Holds J) E := by
  -- the command traps only where it asks for a channel that is not there
  have h_write {servo : Nat} {f : Engine β → Engine β} (h_E : e.servoCount ≤ servo → E e)
      (h_f : Holds J (f e)) : Action.Ends p
        (do if (← (← get).servo? servo).isSome then modify f : Action (Engine β) Unit) e
        (fun _ => Holds J) E :=
    .get_bind (.liftM_bind_of_trap (fun _ => .ite (fun _ => h_f) fun _ => .pure h)
      fun trap h_run => h_E (h.count_le_of_servo? h_run))
  have h_table {servo : Nat} {f : Channel → Channel} :
      (e.table.modify servo f).count ≤ maxServos := by
    rw [ChannelTable.modify_count]
    exact h.count_le
  -- a new target may also raise the flag that something moves
  have h_target {servo ticks : Nat} (h_E : e.servoCount ≤ servo → E e) :
      Action.Ends p (setTargetTicks servo ticks) e (fun _ => Holds J) E := by
    refine h_write h_E ?_
    obtain ⟨moving, h_eq⟩ := refreshMoving_eq servo
      { e with table := e.table.modify servo (·.aim (clampTicks ticks)) }
    rw [h_eq]
    exact ⟨h.board, h.wrap_le, h_table⟩
  cases k with
  | targetTicks servo ticks => exact h_target h_E
  | targetUs servo us => exact h_target h_E
  | speed servo limit => exact h_write h_E ⟨h.board, h.wrap_le, h_table⟩

end Engine

/-! ### Operations -/

namespace Engine

variable {β τ : Type} [Board β] {changes : Action β τ → Prop} {servos : Nat → Prop} {p : Profile}
  {J E : β → Prop} {e : Engine β}

/-- The programs that look at an engine, let its board change by itself in some of the ways
`changes`, and serve its interrupt. -/
inductive Wait (changes : Action β τ → Prop) : {α : Type} → Action (Engine β) α → Prop
  | pure {α : Type} (a : α) : Wait changes (Pure.pure a)
  | look : Wait changes get
  | bind {α α' : Type} {x : Action (Engine β) α} {f : α → Action (Engine β) α'}
      (hx : Wait changes x) (hf : ∀ a, Wait changes (f a)) : Wait changes (x >>= f)
  | board {x : Action β τ} (h : changes x) : Wait changes (onBoard x)
  | interrupt : Wait changes Engine.interrupt

/-- The operations of an engine, in which it names only some of the `servos`. -/
inductive Operation (changes : Action β τ → Prop) (servos : Nat → Prop) :
    {α : Type} → Action (Engine β) α → Prop
  | wait {α : Type} {x : Action (Engine β) α} (h : Wait changes x) : Operation changes servos x
  | start (pins? : Option (List Nat)) : Operation changes servos (Engine.start pins?)
  | stop {wait : Nat → Action (Engine β) Unit} (h : ∀ k, Wait changes (wait k)) :
    Operation changes servos (Engine.stop wait)
  | command (k : Command) (h : servos k.servo) : Operation changes servos k.exec
  | read {servo : Nat} (field : Channel → Nat) (h : servos servo) :
    Operation changes servos (do (← get).readChannel servo field : Action (Engine β) Nat)
  | elapsed : Operation changes servos (do (← get).elapsed : Action (Engine β) Nat)
  | configureOutputs : Operation changes servos Engine.configureOutputs
  | startPulses : Operation changes servos Engine.startPulses
  | halt : Operation changes servos Engine.halt

theorem Wait.confined {α : Type} {x : Action (Engine β) α} (hS : BoardStable p J E)
    (h_changes : ∀ x, changes x → Action.Confined J E p x) (h : Wait changes x) :
    Action.Confined (Holds J) (Holds E) p x := by
  induction h with
  | pure a => exact .pure a
  | look => exact fun _ h_e => h_e
  | bind _ _ ih_x ih_f => exact .bind ih_x ih_f
  | board h => exact confined_onBoard (h_changes _ h)
  | interrupt => exact hS.serviceStable.interrupt

/-- **Invariants of a board.** Every operation of an engine keeps what every operation on its board
keeps, and traps only where one of these does or where a servo is named that is not configured. -/
theorem Operation.ends {α : Type} {x : Action (Engine β) α} (hS : BoardStable p J E)
    (h_changes : ∀ x, changes x → Action.Confined J E p x) (h : Operation changes servos x)
    (h_e : Holds J e) (h_servos : ∀ servo, servos servo → e.servoCount ≤ servo → Holds E e) :
    Action.Ends p x e (fun _ => Holds J) (Holds E) := by
  cases h with
  | wait h => exact h.confined hS h_changes e h_e
  | start pins? => exact hS.start pins? e h_e
  | stop h => exact hS.stop (fun k => (h k).confined hS h_changes) e h_e
  | command k h => exact h_e.ends_exec k (h_servos k.servo h)
  | read field h =>
    refine .get_bind (.checked (fun _ => h_e) fun trap h_run => h_servos _ h ?_)
    exact h_e.count_le_of_servo? (Checked.run_map_eq_error_iff.1 h_run)
  | elapsed =>
    exact .get_bind (.checked (fun _ => h_e) fun trap h_run =>
      hS.serviceStable.elapsed trap h_e h_run)
  | configureOutputs => exact hS.configureOutputs e h_e
  | startPulses => exact hS.startPulses e h_e
  | halt => exact hS.halt e h_e

end Engine

end ServoPulse
