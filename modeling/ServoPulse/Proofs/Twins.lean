import ServoPulse.Proofs.ChipTracking
import ServoPulse.Proofs.Outputs
import ServoPulse.Proofs.Replay

/-!
# The chip behaves as the simulated board

**Twins** are an engine on recorded pins without lag and an engine on the chip that have gone
through the same calls (`Engine.Twins`). Time passes for the first one alone; before the second one
serves an interrupt, its counter and its flags are set to what the simulated timer shows.

The chip of the twin follows the simulated board all along (`follows_of_twins`), and so the twins
never differ in anything they show, and each call that comes next is answered alike
(`twins_alike`). What carries this through an interrupt is that the pins of all channels are
outputs (`Prepared`), since the chip raises a pin whether or not it is one.
-/

namespace ServoPulse

/-- An action ends in one state only. -/
theorem Action.EndsIn.unique {σ α : Type} {x : Action σ α} {p : Profile} {s t u : σ}
    (h : x.EndsIn p s t) (h' : x.EndsIn p s u) : u = t := by
  -- a run that returns is not one that traps, which leaves two cases of four
  rcases h with ⟨a, h⟩ | ⟨trap, h⟩
  · rcases h' with ⟨b, h'⟩ | ⟨trap', h'⟩
    · exact (EStateM.Result.ok.inj (h'.symm.trans h)).2
    · cases h'.symm.trans h
  · rcases h' with ⟨b, h'⟩ | ⟨trap', h'⟩
    · cases h'.symm.trans h
    · exact (EStateM.Result.error.inj (h'.symm.trans h)).2

namespace Engine

/-- A new engine on a chip whose registers are all zero, with the pins that a recorder has. -/
def freshOnChip (config : Config) (prescaler : BitVec 16) : Engine Chip :=
  { board := { prescaler, gpio := { ids := #v[2, 3, 4, 10, 11, 12] } }, config }

/-- A stop during which no time passes and no interrupt is served. -/
def stopAtOnce {β : Type} [Board β] : Action (Engine β) StopReport := stop fun _ => pure ()

/-- An engine on the simulated board and one on the chip after the same calls under the profile
`p`. Time passes on the simulated board only and never overflows. A command for a servo that is not
configured may trap, and both go on. -/
inductive Twins (p : Profile) (config : Config) : Engine (Bench PinRecorder) → Engine Chip → Prop
  | fresh (now : Nat) (prescaler : BitVec 16) :
      Twins p config (freshRecorded config 0 now) (freshOnChip config prescaler)
  | advance {e e' : Engine (Bench PinRecorder)} {t : Engine Chip} {ticks : Nat} {event : Bool}
      (h : Twins p config e t) (h_run : ∀ q, (Engine.advance ticks).run q e = .ok event e') :
      Twins p config e' t
  | start {e e' : Engine (Bench PinRecorder)} {t t' : Engine Chip} {pins? : Option (List Nat)}
      {r r' : Except StartError Unit} (h : Twins p config e t)
      (h_run : (Engine.start pins?).run p e = .ok r e')
      (h_chip : (Engine.start pins?).run p t = .ok r' t') : Twins p config e' t'
  | stop {e e' : Engine (Bench PinRecorder)} {t t' : Engine Chip} {report report' : StopReport}
      (h : Twins p config e t) (h_run : stopAtOnce.run p e = .ok report e')
      (h_chip : stopAtOnce.run p t = .ok report' t') : Twins p config e' t'
  | command {e e' : Engine (Bench PinRecorder)} {t t' : Engine Chip} {k : Command}
      (h : Twins p config e t) (h_run : k.exec.EndsIn p e e') (h_chip : k.exec.EndsIn p t t') :
      Twins p config e' t'
  | interrupt {e e' : Engine (Bench PinRecorder)} {t t' : Engine Chip} (h : Twins p config e t)
      (h_run : ∀ q, Engine.interrupt.run q e = .ok () e')
      (h_chip : Engine.interrupt.run p (t.mirror e.clock) = .ok () t') : Twins p config e' t'

/-- What two twins show alike. -/
structure ShowAlike (e : Engine (Bench PinRecorder)) (t : Engine Chip) : Prop where
  table_eq : t.table = e.table
  started_eq : t.started = e.started
  moving_eq : t.moving = e.moving
  phase_eq : t.phase = e.phase
  periods_eq : t.periods = e.periods
  level_eq : ∀ pin, Board.isHigh t.board pin = Board.isHigh e.board pin
  running_eq : (t.board.memory.read Tim3.cr1).getLsbD 0 = e.clock.running
  armed_eq : (t.board.memory.read Tim3.dier).getLsbD 1 = e.clock.compare.isSome
  value_eq : ∀ value, e.clock.compare = some value →
    t.board.memory.read Tim3.ccr1 = BitVec.ofNat 32 value.val

/-- What two twins answer alike: each call that the first one answers. -/
structure AnswerAlike (p : Profile) (e : Engine (Bench PinRecorder)) (t : Engine Chip) : Prop where
  start : ∀ {pins? r e'}, (Engine.start pins?).run p e = .ok r e' →
    ∃ t', (Engine.start pins?).run p t = .ok r t'
  stop : ∀ {report e'}, stopAtOnce.run p e = .ok report e' →
    ∃ t', stopAtOnce.run p t = .ok report t'
  command : ∀ {k : Command} {e'}, k.exec.run p e = .ok () e' → ∃ t', k.exec.run p t = .ok () t'
  trap : ∀ {k : Command} {trap e'}, k.exec.run p e = .error trap e' →
    ∃ t', k.exec.run p t = .error trap t'
  interrupt : ∀ {e'}, (∀ q, Engine.interrupt.run q e = .ok () e') →
    ∃ t', Engine.interrupt.run p (t.mirror e.clock) = .ok () t'
  read : ∀ servo field, (t.readChannel servo field).run p = (e.readChannel servo field).run p

variable {p : Profile} {config : Config} {prescaler : BitVec 16}
  {e e' : Engine (Bench PinRecorder)} {t : Engine Chip}

theorem tracks_startOnChip (pins? : Option (List Nat)) :
    Action.Tracks (OnBoards Chip.Follows) p (fun _ => True) (start pins?) (start pins?) :=
  Chip.Follows.callsTrack.start pins?

theorem tracks_stopAtOnce : Action.Tracks (OnBoards Chip.Follows) p (fun _ => True)
    stopAtOnce stopAtOnce :=
  Chip.Follows.callsTrack.stop fun _ => .pure ()

theorem isHigh_freshOnChip (pin : Nat) :
    (freshOnChip config prescaler).board.gpio.isHigh pin = false := by
  -- each of the six slots is low at first, and every other pin reads as low
  unfold Gpio.isHigh
  split
  · rename_i slot _
    change (Vector.replicate 6 false)[slot]?.getD false = false
    rw [Vector.getElem?_replicate]
    split <;> rfl
  · rfl

/-- A chip that nothing was done to follows a simulated board that nothing was done to. -/
theorem follows_fresh (now : Nat) (prescaler : BitVec 16) :
    OnBoards Chip.Follows (freshRecorded config 0 now) (freshOnChip config prescaler) := by
  -- every register of a new chip is zero
  have h_zero (address bit : Nat) :
      (((freshOnChip config prescaler).board.memory.read address).getLsbD bit) = false := by
    change (Memory.read {} address).getLsbD bit = false
    rw [Memory.read_empty]
    exact BitVec.getLsbD_zero
  refine ⟨_, ⟨rfl, rfl, fun pin => ?_, h_zero _ _, h_zero _ _, nofun⟩, rfl⟩
  exact (isHigh_freshOnChip pin).trans (PinRecorder.isHigh_new pin).symm

/-- **Twins stay together.** The chip follows the simulated board through every call, and the pins
of the channels are outputs there. -/
theorem follows_of_twins (h : Twins p config e t) :
    OnBoards Chip.Follows e t ∧ Prepared e := by
  have h_stable := Prepared.stable (P := PinRecorder) (p := p) true
  -- by induction on the two sequences, one case for each kind of step
  induction h with
  | fresh now prescaler =>
    exact ⟨follows_fresh now prescaler, .initial config 0 now ({} : PinRecorder)⟩
  | advance _ h_run ih =>
    obtain ⟨⟨c, h_follows, rfl⟩, h_prepared⟩ := ih
    have h_prepared := h_stable.moment h_prepared (.advance h_run)
    obtain ⟨limit, clock, h_clock, rfl⟩ := run_advance_eq_ok (h_run .debug)
    -- time changes neither whether the timer runs nor what it is armed for
    have h_passes := Clock.keeps_advanceUntil limit h_clock
    refine ⟨⟨c, ?_, rfl⟩, h_prepared⟩
    exact h_follows.of_same rfl rfl h_passes.running_eq h_passes.compare_eq rfl rfl rfl rfl
  | start _ h_run h_chip ih =>
    -- the chip answers as the recorder board does, so its step is the one that is given
    obtain ⟨t', h_all, h_follows⟩ := tracks_startOnChip _ ih.1 h_run
    obtain ⟨-, rfl⟩ := EStateM.Result.ok.inj ((h_all p trivial).symm.trans h_chip)
    exact ⟨h_follows, h_stable.step ih.2 (.start h_run)⟩
  | stop _ h_run h_chip ih =>
    obtain ⟨t', h_all, h_follows⟩ := tracks_stopAtOnce ih.1 h_run
    obtain ⟨-, rfl⟩ := EStateM.Result.ok.inj ((h_all p trivial).symm.trans h_chip)
    refine ⟨h_follows, h_stable.step ih.2 (.stop (fun k => ?_) h_run fun _ => rfl)⟩
    exact .pure ()
  | command _ h_run h_chip ih =>
    obtain ⟨⟨c, h_follows, rfl⟩, h_prepared⟩ := ih
    obtain rfl := (endsIn_exec_onto h_run c).unique h_chip
    refine ⟨⟨c, ?_, rfl⟩, h_stable.step h_prepared (.command h_run)⟩
    -- a command leaves the board alone
    rcases endsIn_exec h_run with rfl | ⟨moving, rfl⟩
    · exact h_follows
    · exact h_follows
  | interrupt _ h_run h_chip ih =>
    obtain ⟨t', h_all, h_follows⟩ := exists_interrupt_of_follows ih.1
      (fun c hc => (ih.2.output c.pin (List.mem_map_of_mem hc)).2) (h_run .debug)
    obtain ⟨-, rfl⟩ := EStateM.Result.ok.inj ((h_all p).symm.trans h_chip)
    exact ⟨h_follows, h_stable.moment ih.2 (.interrupt h_run)⟩

theorem showAlike_of_follows (h : OnBoards Chip.Follows e t) : ShowAlike e t := by
  obtain ⟨c, h_follows, rfl⟩ := h
  exact ⟨rfl, rfl, rfl, rfl, rfl, h_follows.level_eq, h_follows.running_eq, h_follows.armed_eq,
    h_follows.value_eq⟩

theorem answerAlike_of_follows (h : OnBoards Chip.Follows e t) (h_prepared : Prepared e) :
    AnswerAlike p e t where
  start h_run := by
    obtain ⟨t', h_all, -⟩ := tracks_startOnChip _ h h_run
    exact ⟨t', h_all p trivial⟩
  stop h_run := by
    obtain ⟨t', h_all, -⟩ := tracks_stopAtOnce h h_run
    exact ⟨t', h_all p trivial⟩
  command {k e'} h_run := by
    obtain ⟨c, -, rfl⟩ := h
    refine ⟨e'.onto c, ?_⟩
    rw [run_exec_onto, h_run]
  trap {k trap e'} h_run := by
    obtain ⟨c, -, rfl⟩ := h
    refine ⟨e'.onto c, ?_⟩
    rw [run_exec_onto, h_run]
  interrupt h_run := by
    obtain ⟨t', h_all, -⟩ := exists_interrupt_of_follows h
      (fun c hc => (h_prepared.output c.pin (List.mem_map_of_mem hc)).2) (h_run .debug)
    exact ⟨t', h_all p⟩
  read servo field := by
    obtain ⟨c, -, rfl⟩ := h
    rfl

/-- **The chip behaves as the simulated board.** After every sequence of calls the twins show the
same channels, levels, phase and timer registers, and answer the next call alike, whatever it
is. -/
theorem twins_alike (h : Twins p config e t) : ShowAlike e t ∧ AnswerAlike p e t := by
  obtain ⟨h_follows, h_prepared⟩ := follows_of_twins h
  exact ⟨showAlike_of_follows h_follows, answerAlike_of_follows h_follows h_prepared⟩

/-- Whatever the engine on the simulated board does, its twin can do as well. -/
theorem exists_twins_of_replay? {ops : List Op} (h : Twins p config e t)
    (h_replay : replay? p ops e = some e') : ∃ t', Twins p config e' t' := by
  -- by induction on the calls: each of them extends both sequences
  induction ops generalizing e t with
  | nil =>
    cases h_replay
    exact ⟨t, h⟩
  | cons op ops ih =>
    obtain ⟨e₁, h_next, h_replay⟩ := Option.bind_eq_some_iff.1 h_replay
    obtain ⟨h_follows, h_prepared⟩ := follows_of_twins h
    have h_answers : AnswerAlike p e t := answerAlike_of_follows h_follows h_prepared
    have h_first : ∃ t₁, Twins p config e₁ t₁ := by
      cases op with
      | advance ticks =>
        -- time passes on the recorder board alone
        obtain ⟨⟨event, e₁⟩, h_result, rfl⟩ := Option.map_eq_some_iff.1 h_next
        exact ⟨t, h.advance (run_of_agreed? h_result)⟩
      | interrupt =>
        obtain ⟨⟨⟨⟩, e₁⟩, h_result, rfl⟩ := Option.map_eq_some_iff.1 h_next
        have h_run := run_of_agreed? h_result
        -- every other call is carried out on the chip with the same answer
        obtain ⟨t₁, h_chip⟩ := h_answers.interrupt h_run
        exact ⟨t₁, h.interrupt h_run h_chip⟩
      | start pins? =>
        obtain ⟨⟨r, e₁⟩, h_result, rfl⟩ := Option.map_eq_some_iff.1 h_next
        have h_run := Action.run_eq_ok_of_result? h_result
        obtain ⟨t₁, h_chip⟩ := h_answers.start h_run
        exact ⟨t₁, h.start h_run h_chip⟩
      | command k =>
        obtain ⟨⟨⟨⟩, e₁⟩, h_result, rfl⟩ := Option.map_eq_some_iff.1 h_next
        have h_run := Action.run_eq_ok_of_result? h_result
        obtain ⟨t₁, h_chip⟩ := h_answers.command h_run
        exact ⟨t₁, h.command (.inl ⟨⟨⟩, h_run⟩) (.inl ⟨⟨⟩, h_chip⟩)⟩
    obtain ⟨t₁, h₁⟩ := h_first
    exact ih h₁ h_replay

/-- A run that replaces the list of pins while pin 2 is high. -/
def replacedRun : Option (Engine (Bench PinRecorder)) :=
  replay? .debug
    [.start (some [2]), .command (.targetTicks 0 36000), .advance 65536, .interrupt,
      .start (some [3]), .command (.targetTicks 0 100)]
    (freshRecorded { wrapsPerPeriod := 1 } 0 0)

theorem isSome_replacedRun : replacedRun.isSome = true := by decide +kernel

theorem twins_alike_replacedRun :
    ∃ e t, Twins .debug { wrapsPerPeriod := 1 } e t ∧ e.pins.isHigh 2 = true ∧
      e.table.active.map Channel.pin = [3] ∧ e.clock.compare = some 36000 ∧
      ShowAlike e t ∧ AnswerAlike .debug e t := by
  obtain ⟨t, h⟩ := exists_twins_of_replay? (.fresh 0 1) (Option.some_get isSome_replacedRun).symm
  refine ⟨_, t, h, ?_, ?_, ?_, twins_alike h⟩
  · decide +kernel
  · decide +kernel
  · decide +kernel

end Engine

end ServoPulse
