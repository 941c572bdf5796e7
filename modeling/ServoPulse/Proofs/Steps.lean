import Mathlib.Logic.Relation
import ServoPulse.Proofs.Effects.Calls
import ServoPulse.Simulation.Run

/-!
# Runs of an engine

What can happen to an engine on a simulated board, in any order: a `Moment` lets time pass
up to the next event at most or serves the interrupt, whether or not a flag is up, so that
an interrupt may be served at once, late, or never; a `Step` is a moment or a call. Time
never overflows: a moment comes out the same under both profiles.

A stop waits by moments of its own. `Steps p false` are the runs under the profile `p` in
which no stop gives up waiting, and `Steps p true` the runs in which some may.

A `PromptRun` is a run without stops that serves every event at once; it keeps its history. A
`CleanRun` may stop as well, as long as it does so while no pulse is in flight.

A property kept by what the steps are made of (`Stable`) holds in every state of a run
(`Stable.steps`). Where that takes an invariant known before, the two are proved together
(`Stable.and`).
-/

namespace ServoPulse

namespace Engine

variable {P : Type}

/-- A new engine on a bench that shows the time `now`. -/
def fresh (config : Config) (lag now : Nat) (pins : P) : Engine (Bench P) :=
  { board := { clock := { now }, lag, pins }, config }

/-- A new engine on new recorded pins. -/
def freshRecorded (config : Config) (lag now : Nat) : Engine (Bench PinRecorder) :=
  fresh config lag now {}

variable [PinBank P]

/-- What happens to an engine that is left alone. -/
inductive Moment (e e' : Engine (Bench P)) : Prop
  /-- Time passes up to the next event, or for some ticks if there is none before. -/
  | advance {ticks : Nat} {event : Bool} (h : ∀ p, (Engine.advance ticks).run p e = .ok event e')
  /-- The interrupt is served. -/
  | interrupt (h : ∀ p, Engine.interrupt.run p e = .ok () e')

/-- Any number of moments. -/
abbrev Moments : Engine (Bench P) → Engine (Bench P) → Prop := Relation.ReflTransGen Moment

/-- One step of a run under the profile `p`. A command for a servo that is not configured
may trap, and the run goes on. A stop may give up waiting only where `cuts` allows it. -/
inductive Step (p : Profile) (cuts : Bool) (e e' : Engine (Bench P)) : Prop
  | moment (h : Moment e e')
  | start {pins? : Option (List Nat)} {r : Except StartError Unit}
      (h : (Engine.start pins?).run p e = .ok r e')
  | command {k : Command} (h : k.exec.EndsIn p e e')
  | stop {wait : Nat → Action (Engine (Bench P)) Unit} {report : StopReport}
      (h_wait : ∀ k, Action.Keeps Moments p (wait k))
      (h : (Engine.stop wait).run p e = .ok report e') (h_cuts : report.forced = true → cuts = true)

/-- A run under the profile `p`. -/
abbrev Steps (p : Profile) (cuts : Bool) : Engine (Bench P) → Engine (Bench P) → Prop :=
  Relation.ReflTransGen (Step p cuts)

theorem Moments.steps {p : Profile} {cuts : Bool} {e e' : Engine (Bench P)} (h : Moments e e') :
    Steps p cuts e e' :=
  Relation.ReflTransGen.mono (fun _ _ => Step.moment) e e' h

omit [PinBank P] in
/-- Time passes by a jump of the clock. -/
theorem run_advance_eq_ok {p : Profile} {ticks : Nat} {event : Bool} {e e' : Engine (Bench P)}
    (h : (advance ticks).run p e = .ok event e') :
    ∃ limit clock, (Clock.advanceUntil limit).run p e.clock = .ok event clock ∧
      e' = e.withClock clock := by
  rw [advance, Action.run_get_bind] at h
  obtain ⟨limit, -, h⟩ := Action.run_liftM_bind_eq_ok_iff.1 h
  obtain ⟨b, h_board, rfl⟩ := Action.run_zoom_eq_ok_iff.1 h
  obtain ⟨clock, h_clock, rfl⟩ := Action.run_zoom_eq_ok_iff.1 h_board
  exact ⟨limit, clock, h_clock, rfl⟩

/-- Serving the next event: time passes by a jump of the clock, and then the interrupt is
served if the jump came to an event. -/
theorem run_serveNext_eq_ok {p : Profile} {limit : Nat} {event : Bool} {e e' : Engine (Bench P)}
    (h : (serveNext limit).run p e = .ok event e') :
    ∃ clock, (Clock.advanceUntil limit).run p e.clock = .ok event clock ∧
      (event = false ∧ e' = e.withClock clock ∨
        event = true ∧ Engine.interrupt.run p (e.withClock clock) = .ok () e') := by
  obtain ⟨event₁, t, h_clock, h⟩ := Action.run_bind_eq_ok_iff.1 h
  obtain ⟨b, h_board, rfl⟩ := Action.run_zoom_eq_ok_iff.1 h_clock
  obtain ⟨clock, h_advance, rfl⟩ := Action.run_zoom_eq_ok_iff.1 h_board
  cases event₁ with
  | false =>
    -- no event came, so only the clock has moved
    obtain ⟨rfl, rfl⟩ := Action.run_pure_eq_ok_iff.1 h
    exact ⟨clock, h_advance, .inl ⟨rfl, rfl⟩⟩
  | true =>
    -- an event came, and it was served
    obtain ⟨⟨⟩, u, h_serve, h⟩ := Action.run_bind_eq_ok_iff.1 h
    obtain ⟨rfl, rfl⟩ := Action.run_pure_eq_ok_iff.1 h
    exact ⟨clock, h_advance, .inr ⟨rfl, h_serve⟩⟩

omit [PinBank P] in
/-- The timer of a new engine stands still, so that nothing but time goes by. -/
theorem exists_fresh_of_advanceUntil {config : Config} {lag now : Nat} {pins : P} {limit : Nat}
    {event : Bool} {clock : Clock}
    (h : (Clock.advanceUntil limit).run .debug (fresh config lag now pins).clock =
      .ok event clock) :
    event = false ∧
      ∃ now', (fresh config lag now pins).withClock clock = fresh config lag now' pins := by
  obtain ⟨-, h_reach⟩ := Clock.run_advanceUntil_debug_iff.1 h
  -- the timer of a fresh engine stands still, so no event comes
  rw [Clock.reach_of_stopped rfl] at h_reach
  obtain ⟨rfl, rfl⟩ := Prod.mk.inj h_reach
  exact ⟨rfl, _, rfl⟩

theorem Moments.started_eq {e e' : Engine (Bench P)} (h : Moments e e') :
    -- neither time nor an interrupt starts or stops the engine
    e'.started = e.started := by
  induction h with
  | refl => rfl
  | tail _ h ih =>
    cases h with
    | advance h =>
      obtain ⟨limit, clock, -, rfl⟩ := run_advance_eq_ok (h .debug)
      exact ih
    | interrupt h => exact (started_of_run_interrupt (h .debug)).trans ih

/-- A stop that is not forced shuts the engine down where no pulse is in flight. -/
theorem run_stop_of_not_forced {p : Profile} {e e' : Engine (Bench P)}
    {wait : Nat → Action (Engine (Bench P)) Unit} {report : StopReport}
    (h_wait : ∀ k, Action.Keeps Moments p (wait k))
    (h_valid : e.started = true → e.config.validate = .ok ()) (h_forced : report.forced = false)
    (h : (Engine.stop wait).run p e = .ok report e') :
    e' = e ∨ ∃ e₁, Moments e e₁ ∧ e₁.started = true ∧ e₁.pulseInFlight = false ∧
      Engine.shutDown.run p e₁ = .ok () e' := by
  -- a stop of an engine that is off does nothing
  rcases run_stop_eq_ok h_wait h_valid h with ⟨-, -, rfl⟩ | ⟨h_on, e₁, h_moments, h_down, h_flight⟩
  · exact .inl rfl
  · exact .inr ⟨e₁, h_moments, h_moments.started_eq.trans h_on, h_flight.symm.trans h_forced,
      h_down⟩

/-! ### Prompt runs -/

/-- The runs of an engine that begin with a successful start of `e₀` and serve every event at
once; `older` are the states before the last one, from the last to the first. Commands and
further starts may come at any time, in any order and with any outcome. -/
inductive PromptRun (p : Profile) (e₀ : Engine (Bench P)) :
    (older : List (Engine (Bench P))) → Engine (Bench P) → Prop
  | first {pins? : Option (List Nat)} {e : Engine (Bench P)}
      (h : (Engine.start pins?).run p e₀ = .ok (.ok ()) e) : PromptRun p e₀ [] e
  | serve {older : List (Engine (Bench P))} {e e' : Engine (Bench P)} {limit : UInt64}
      {event : Bool} (h_run : PromptRun p e₀ older e)
      (h : ∀ q, (serveNext limit.toNat).run q e = .ok event e') : PromptRun p e₀ (e :: older) e'
  | command {older : List (Engine (Bench P))} {e e' : Engine (Bench P)} {k : Command}
      (h_run : PromptRun p e₀ older e) (h : k.exec.EndsIn p e e') :
      PromptRun p e₀ (e :: older) e'
  | start {older : List (Engine (Bench P))} {e e' : Engine (Bench P)} {pins? : Option (List Nat)}
      {r : Except StartError Unit} (h_run : PromptRun p e₀ older e)
      (h : (Engine.start pins?).run p e = .ok r e') : PromptRun p e₀ (e :: older) e'

/-- The runs of an engine that serve every event at once and shut the engine down only while no
pulse is in flight; `older` are the states before the last one, from the last to the first. A stop
that serves every event while it waits is a number of served events and, unless it gives up waiting,
such a shutdown. -/
inductive CleanRun (p : Profile) (e₀ : Engine (Bench P)) :
    (older : List (Engine (Bench P))) → Engine (Bench P) → Prop
  | new : CleanRun p e₀ [] e₀
  | serve {older : List (Engine (Bench P))} {e e' : Engine (Bench P)} {limit : UInt64}
      {event : Bool} (h_run : CleanRun p e₀ older e)
      (h : (serveNext limit.toNat).run .debug e = .ok event e') : CleanRun p e₀ (e :: older) e'
  | command {older : List (Engine (Bench P))} {e e' : Engine (Bench P)} {k : Command}
      (h_run : CleanRun p e₀ older e) (h : k.exec.EndsIn p e e') :
      CleanRun p e₀ (e :: older) e'
  | start {older : List (Engine (Bench P))} {e e' : Engine (Bench P)} {pins? : Option (List Nat)}
      {r : Except StartError Unit} (h_run : CleanRun p e₀ older e)
      (h : (Engine.start pins?).run p e = .ok r e') : CleanRun p e₀ (e :: older) e'
  | stop {older : List (Engine (Bench P))} {e e' : Engine (Bench P)}
      (h_run : CleanRun p e₀ older e) (h_on : e.started = true) (h_flight : e.pulseInFlight = false)
      (h : shutDown.run p e = .ok () e') : CleanRun p e₀ (e :: older) e'

/-- A prompt run is a clean one that begins with a start. -/
theorem PromptRun.clean {p : Profile} {e₀ e : Engine (Bench P)} {older : List (Engine (Bench P))}
    (h : PromptRun p e₀ older e) : CleanRun p e₀ (older ++ [e₀]) e := by
  induction h with
  | first h => exact .start .new h
  | serve _ h ih => exact .serve ih (h .debug)
  | command _ h ih => exact .command ih h
  | start _ h ih => exact .start ih h

/-! ### Properties of every state -/

/-- A property that everything the steps are made of preserves. -/
structure Stable (p : Profile) (cuts : Bool) (I : Engine (Bench P) → Prop) : Prop where
  /-- An engine runs only with a configuration it can run with, so a stop waits in steps
  that end. -/
  valid : ∀ {e}, I e → e.started = true → e.config.validate = .ok ()
  advance : ∀ {e limit event clock}, I e →
    (Clock.advanceUntil limit).run .debug e.clock = .ok event clock → I (e.withClock clock)
  interrupt : ∀ {e e'}, I e → Engine.interrupt.run .debug e = .ok () e' → I e'
  relist : ∀ {e e'}, I e → Relisted e e' → I e'
  launch : ∀ {e starts}, I e → e.started = false → e.config.validate = .ok () →
    I (e.launched starts)
  command : ∀ {e moving} {k : Command}, I e →
    I { e with table := e.table.modify k.servo k.write, moving }
  shutDown : ∀ {e e'}, I e → (e.pulseInFlight = true → cuts = true) →
    Engine.shutDown.run p e = .ok () e' → I e'

namespace Stable

variable {p : Profile} {cuts : Bool} {I : Engine (Bench P) → Prop} {e e' : Engine (Bench P)}

theorem moment (hI : Stable p cuts I) (he : I e) (h : Moment e e') : I e' := by
  cases h with
  | advance h =>
    obtain ⟨limit, clock, h_clock, rfl⟩ := run_advance_eq_ok (h .debug)
    exact hI.advance he h_clock
  | interrupt h => exact hI.interrupt he (h .debug)

theorem moments (hI : Stable p cuts I) (he : I e) (h : Moments e e') : I e' := by
  induction h with
  | refl => exact he
  | tail _ h ih => exact hI.moment ih h

theorem serveNext {limit : Nat} {event : Bool} (hI : Stable p cuts I) (he : I e)
    (h : (Engine.serveNext limit).run .debug e = .ok event e') : I e' := by
  obtain ⟨clock, h_advance, ⟨-, rfl⟩ | ⟨-, h_serve⟩⟩ := run_serveNext_eq_ok h
  · exact hI.advance he h_advance
  · exact hI.interrupt (hI.advance he h_advance) h_serve

theorem relisted (hI : Stable p cuts I) (he : I e) (h : Relisted e e') :
    I e' ∧ e'.started = e.started ∧ e'.config = e.config := by
  refine ⟨hI.relist he h, ?_⟩
  cases h <;> exact ⟨rfl, rfl⟩

theorem step (hI : Stable p cuts I) (he : I e) (h : Step p cuts e e') : I e' := by
  cases h with
  | moment h => exact hI.moment he h
  | start h =>
    -- a refused start changes nothing
    rcases run_start_eq_ok h with ⟨-, rfl⟩ | ⟨-, h_valid, e₁, h_list, h_rest⟩
    · exact he
    -- the channels are replaced first, and then the engine is launched if it was not running
    obtain ⟨he₁, h_started, h_config⟩ := hI.relisted he h_list
    rcases h_rest with ⟨-, rfl⟩ | ⟨h_off, starts, rfl⟩
    · exact he₁
    · exact hI.launch he₁ (h_started.trans h_off) (h_config ▸ h_valid)
  | command h =>
    -- a command writes one slot at most
    rcases endsIn_exec h with rfl | ⟨moving, rfl⟩
    · exact he
    · exact hI.command he
  | stop h_wait h h_cuts =>
    -- a stop changes nothing, or the engine is shut down after the moments of the wait
    rcases run_stop_eq_ok h_wait (hI.valid he) h with
      ⟨-, -, rfl⟩ | ⟨-, e₁, h_moments, h_down, h_forced⟩
    · exact he
    · exact hI.shutDown (hI.moments he h_moments) (h_forced ▸ h_cuts) h_down

/-- **Invariants.** A stable property of a state holds in every state of a run from it. -/
theorem steps (hI : Stable p cuts I) (he : I e) (h : Steps p cuts e e') : I e' := by
  induction h with
  | refl => exact he
  | tail _ h ih => exact hI.step ih h

theorem cleanRun {e₀ : Engine (Bench P)} {older : List (Engine (Bench P))} (hI : Stable p cuts I)
    (h₀ : I e₀) (h : CleanRun p e₀ older e) : I e := by
  induction h with
  | new => exact h₀
  | serve _ h ih => exact hI.serveNext ih h
  | command _ h ih => exact hI.step ih (.command h)
  | start _ h ih => exact hI.step ih (.start h)
  | stop _ _ h_flight h ih =>
    exact hI.shutDown ih (fun h_some => Bool.noConfusion (h_flight.symm.trans h_some)) h

end Stable

/-- A property that everything the steps are made of preserves wherever `I` holds as well. -/
structure StableUnder (p : Profile) (cuts : Bool) (I J : Engine (Bench P) → Prop) : Prop where
  advance : ∀ {e limit event clock}, I e → J e →
    (Clock.advanceUntil limit).run .debug e.clock = .ok event clock → J (e.withClock clock)
  interrupt : ∀ {e e'}, I e → J e → Engine.interrupt.run .debug e = .ok () e' → J e'
  relist : ∀ {e e'}, I e → J e → Relisted e e' → J e'
  launch : ∀ {e starts}, I e → J e → e.started = false → J (e.launched starts)
  command : ∀ {e moving} {k : Command}, I e → J e →
    J { e with table := e.table.modify k.servo k.write, moving }
  shutDown : ∀ {e e'}, I e → J e → (e.pulseInFlight = true → cuts = true) →
    Engine.shutDown.run p e = .ok () e' → J e'

/-- What is known may be more than is needed. -/
theorem StableUnder.mono {p : Profile} {cuts : Bool} {I I' J : Engine (Bench P) → Prop}
    (hJ : StableUnder p cuts I J) (h_imp : ∀ e, I' e → I e) : StableUnder p cuts I' J where
  advance h := hJ.advance (h_imp _ h)
  interrupt h := hJ.interrupt (h_imp _ h)
  relist h := hJ.relist (h_imp _ h)
  launch h := hJ.launch (h_imp _ h)
  command h := hJ.command (h_imp _ h)
  shutDown h := hJ.shutDown (h_imp _ h)

/-- What no request to a pin changes holds all along. -/
theorem StableUnder.of_pins {p : Profile} {cuts : Bool} {I : Engine (Bench P) → Prop}
    {J : P → Prop} (h_drive : ∀ {q level now pin r r'}, J r →
      (PinBank.drive level now pin).run q r = .ok () r' → J r')
    (h_configure : ∀ {pin r}, J r → J (PinBank.configureOutput pin r)) :
    StableUnder p cuts I fun e => J e.pins where
  advance _ h _ := h
  interrupt {e e'} _ h h_run := by
    -- the pins change by requests only, so the parts of an interrupt without one have nothing to
    -- show
    have h_serve : ServeStable fun e : Engine (Bench P) => J e.pins :=
      { lower := fun {t t' f rest} h_t _ _ _ h_lower => by
          obtain ⟨pins, h_pins, rfl⟩ := run_lower_eq_ok_iff.1 h_lower
          exact h_drive h_t h_pins
        arm := fun h_t _ _ _ _ _ => h_t
        setClock := fun h_t _ _ => h_t
        setWrap := fun h_t => h_t
        setPhase := fun h_t => h_t
        beginPeriod := fun {t t'} h_t h_begin => by
          obtain ⟨low, high, h_low, h_high, rfl⟩ := run_beginPeriod_eq_ok h_begin
          exact PinBank.driveAll_keeps h_drive (PinBank.driveAll_keeps h_drive h_t h_low) h_high }
    exact h_serve.interrupt h h_run
  relist {e e'} _ h h_list := by
    cases h_list with
    | resume moving => exact h
    | list => exact PinBank.prepareAll_keeps h_configure h
  launch _ h _ := h
  command _ h := h
  -- the pins of the table are driven low one after the other
  shutDown {e e'} _ h _ h_run := by
    obtain ⟨pins, h_pins, rfl⟩ := run_shutDown_eq_ok h_run
    exact PinBank.driveAll_keeps h_drive h h_pins

/-- An invariant may be proved with the help of one that is known. -/
theorem Stable.and {p : Profile} {cuts : Bool} {I J : Engine (Bench P) → Prop}
    (hI : Stable p cuts I) (hJ : StableUnder p cuts I J) : Stable p cuts fun e => I e ∧ J e where
  valid h := hI.valid h.1
  advance h h_run := ⟨hI.advance h.1 h_run, hJ.advance h.1 h.2 h_run⟩
  interrupt h h_run := ⟨hI.interrupt h.1 h_run, hJ.interrupt h.1 h.2 h_run⟩
  relist h h_list := ⟨hI.relist h.1 h_list, hJ.relist h.1 h.2 h_list⟩
  launch h h_off h_valid := ⟨hI.launch h.1 h_off h_valid, hJ.launch h.1 h.2 h_off⟩
  command h := ⟨hI.command h.1, hJ.command h.1 h.2⟩
  shutDown h h_cuts h_run := ⟨hI.shutDown h.1 h_cuts h_run, hJ.shutDown h.1 h.2 h_cuts h_run⟩

end Engine

end ServoPulse
