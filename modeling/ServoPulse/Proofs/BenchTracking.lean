import ServoPulse.Proofs.Passing
import ServoPulse.Proofs.Steps
import ServoPulse.Proofs.Tracking
import ServoPulse.Simulation.Delay

/-!
# Simulated boards that track each other

Two benches whose clocks agree and whose pins track each other are boards that track each
other (`PinsTrack.board`), and so do the engines on them when time passes
(`tracks_advance`, `tracks_run`) and when they stop (`tracks_stopServing`).

An engine on a bench may be followed under its own profile, or from the `debug` profile to
both profiles at once: an operation that returns there has overflowed nothing, and so the
`release` profile gives the same result, as long as the time before fits its width
(`InTime`). Recorded pins track themselves in either way (`PinRecorder.pinsTrack`). So
whatever an engine on them does in the `debug` profile without a trap is a moment of a run
(`moment_of_run_advance`, `moment_of_run_interrupt`).
-/

namespace ServoPulse

variable {p : Profile} {Q : Profile → Prop}

/-- The profiles in `Q` do with times what `p` does: they are `p`, or the time `now` fits its
width and `p` is the profile that traps on those that do not. -/
def InTime (p : Profile) (Q : Profile → Prop) (now : Nat) : Prop :=
  (∀ q, Q q → q = p) ∨ p = .debug ∧ now < Clock.instants

theorem InTime.of_lt {now : Nat} (h : now < Clock.instants) :
    InTime .debug (fun _ => True) now :=
  .inr ⟨rfl, h⟩

theorem InTime.lt {now : Nat} (h : InTime .debug (fun _ => True) now) : now < Clock.instants := by
  obtain h_same | ⟨-, h_lt⟩ := h
  · exact absurd (h_same .release trivial) nofun
  · exact h_lt

/-! ### Checked numbers -/

theorem Checked.tracks_self {α : Type} (h : ∀ q, Q q → q = p) (x : Checked α) :
    x.Tracks p Q x := by
  intro a h_run q hq
  rw [h q hq, h_run]

theorem InTime.tracks_add {now : Nat} (h : InTime p Q now) (w : Width) (a b : Nat) :
    Checked.Tracks p Q (Checked.add w a b) (Checked.add w a b) := by
  obtain h_same | ⟨rfl, -⟩ := h
  · exact Checked.tracks_self h_same _
  · intro n h_run q _
    obtain ⟨h_lt, rfl⟩ := Checked.run_add_debug_iff.1 h_run
    exact Checked.run_add_of_lt h_lt q

theorem InTime.tracks_sub {now : Nat} (h : InTime p Q now) (b : Nat) :
    Checked.Tracks p Q (Checked.sub .bits64 now b) (Checked.sub .bits64 now b) := by
  obtain h_same | ⟨rfl, h_lt⟩ := h
  · exact Checked.tracks_self h_same _
  · intro n h_run q _
    obtain ⟨h_le, rfl⟩ := Checked.run_sub_debug_iff.1 h_run
    exact Checked.run_sub_of_le h_le h_lt q

/-- A time that came out of a sum fits. -/
theorem InTime.of_run_add {now a b n : Nat} (h : InTime p Q now)
    (h_run : (Checked.add .bits64 a b).run p = .ok n) : InTime p Q n := by
  obtain h_same | ⟨rfl, -⟩ := h
  · exact .inl h_same
  · obtain ⟨h_lt, rfl⟩ := Checked.run_add_debug_iff.1 h_run
    exact .inr ⟨rfl, h_lt⟩

/-! ### The clock -/

namespace Clock

/-- The same clock, at a time that fits. -/
def Same (p : Profile) (Q : Profile → Prop) (c d : Clock) : Prop := d = c ∧ InTime p Q c.now

theorem tracks_counter {c : Clock} (h : InTime p Q c.now) :
    Checked.Tracks p Q c.counter c.counter := by
  intro n h_run q hq
  unfold counter at h_run ⊢
  -- a running counter shows a difference, which comes out alike
  split at h_run
  · rename_i h_running
    rw [if_pos h_running]
    obtain ⟨m, h_m, rfl⟩ := Checked.run_map_eq_ok_iff.1 h_run
    exact Checked.run_map_eq_ok_iff.2 ⟨m, h.tracks_sub _ m h_m q hq, rfl⟩
  · -- a stopped counter shows zero under any profile
    rename_i h_stopped
    rw [if_neg h_stopped]
    exact h_run

theorem tracks_start : Action.Tracks (Same p Q) p Q Clock.start Clock.start := by
  refine .bind (.modify ?_) fun _ => .get_bind ?_
  · rintro c d ⟨rfl, h_time⟩
    exact ⟨rfl, h_time⟩
  · rintro c d ⟨rfl, h_time⟩
    refine .liftM_bind (h_time.tracks_add _ _ _) fun starts _ => .modify ?_
    rintro c d ⟨rfl, h_time⟩
    exact ⟨rfl, h_time⟩

/-- A jump of time that returns in the `debug` profile is the same in both. -/
theorem tracks_advanceUntil {limit : Nat} (h : InTime p Q limit) :
    Action.Tracks (Same p Q) p Q (advanceUntil limit) (advanceUntil limit) := by
  rintro c d ⟨rfl, h_time⟩ event c' h_run
  obtain h_same | ⟨rfl, h_limit⟩ := h
  · -- under the profile of the run there is nothing to show
    exact ⟨c', fun q hq => h_same q hq ▸ h_run, rfl, .inl h_same⟩
  obtain ⟨h_fits, h_reach⟩ := run_advanceUntil_debug_iff.1 h_run
  -- under the other one, no sum on the way to the event has left its bits
  refine ⟨c', fun q _ => ?_, rfl, ?_⟩
  · rw [run_advanceUntil_of_fits h_fits, h_reach]
  obtain h_same | ⟨-, h_now⟩ := h_time
  · exact .inl h_same
  · have h_c' : c' = (d.reach limit).2 := by rw [h_reach]
    refine .inr ⟨rfl, ?_⟩
    -- the jump goes to the limit, or to an event at a time that was computed
    rw [h_c']
    unfold reach
    split
    · rename_i h_event
      exact Nat.lt_of_le_of_lt d.eventAt_le_overflowAt (h_fits.overflow_lt h_event.1)
    · exact Nat.max_lt.2 ⟨h_now, h_limit⟩

theorem tracks_passUntil {limit : Nat} (h : InTime p Q limit) :
    Action.Tracks (Same p Q) p Q (passUntil limit) (passUntil limit) :=
  .repeatWhile (tracks_advanceUntil h) _

end Clock

/-! ### The pins -/

/-- Under the map `g`, the pins of the second bank do what those of the first do. -/
structure PinsTrack {P P' : Type} [PinBank P] [PinBank P'] (g : P' → P) (p : Profile)
    (Q : Profile → Prop) : Prop where
  eligible : ∀ s, PinBank.eligible s = PinBank.eligible (g s)
  configureOutput : ∀ pin s, g (PinBank.configureOutput pin s) = PinBank.configureOutput pin (g s)
  setHigh : ∀ {now}, InTime p Q now → ∀ pin,
    Action.Tracks (fun r s => r = g s) p Q (PinBank.setHigh now pin) (PinBank.setHigh now pin)
  setLow : ∀ {now}, InTime p Q now → ∀ pin,
    Action.Tracks (fun r s => r = g s) p Q (PinBank.setLow now pin) (PinBank.setLow now pin)
  isHigh : ∀ s pin, PinBank.isHigh s pin = PinBank.isHigh (g s) pin

namespace PinRecorder

theorem tracks_modify (f : PinRecorder → PinRecorder) :
    Action.Tracks Eq p Q (modify f : Action PinRecorder PUnit) (modify f) := by
  refine .modify ?_
  rintro r _ rfl
  rfl

theorem tracks_violate {now : Nat} (h : InTime p Q now) :
    Action.Tracks Eq p Q violate violate := by
  refine .get_bind ?_
  rintro r _ rfl
  exact .liftM_bind (h.tracks_add _ _ _) fun violations _ => tracks_modify _

/-- Recorded pins do the same under both profiles at a time that fits. -/
theorem pinsTrack : PinsTrack (fun r : PinRecorder => r) p Q where
  eligible _ := rfl
  configureOutput _ _ := rfl
  setHigh h pin := by
    refine .ite (.get_bind ?_) (.pure _)
    rintro r _ rfl
    cases r.state pin with
    | low =>
      -- a low pin takes the time of its rise, which is no computation
      exact tracks_modify _
    | unconfigured => exact tracks_violate h
    | high => exact tracks_violate h
  setLow h pin := by
    refine .ite (.get_bind ?_) (.pure _)
    rintro r _ rfl
    cases r.state pin with
    | unconfigured => exact tracks_violate h
    | low => exact .pure _
    | high roseAt =>
      -- the width of the pulse is a difference of times
      refine .bind (tracks_modify _) fun _ => ?_
      exact .liftM_bind (h.tracks_sub roseAt) fun width _ => tracks_modify _
  isHigh _ _ := rfl

end PinRecorder

/-! ### The bench -/

variable {P P' : Type} {g : P' → P}

namespace Bench

/-- The bench with its pins mapped. -/
def mapPins (g : P' → P) (b : Bench P') : Bench P := ⟨b.clock, b.lag, g b.pins⟩

/-- The first bench is the second one with its pins mapped, at a time that fits. -/
def Mapped (g : P' → P) (p : Profile) (Q : Profile → Prop) (b : Bench P) (c : Bench P') : Prop :=
  b = c.mapPins g ∧ InTime p Q c.clock.now

theorem tracks_onClock {α : Type} {x : Action Clock α}
    (h : Action.Tracks (Clock.Same p Q) p Q x x) :
    Action.Tracks (Mapped g p Q) p Q (onClock x : Action (Bench P) α) (onClock x) := by
  refine h.zoom ?_ ?_
  · rintro _ c ⟨rfl, h_time⟩
    exact ⟨rfl, h_time⟩
  · rintro _ c u v ⟨rfl, -⟩ ⟨rfl, h_time⟩
    exact ⟨rfl, h_time⟩

theorem tracks_onPins {x : Action P Unit} {y : Action P' Unit}
    (h : Action.Tracks (fun r s => r = g s) p Q x y) :
    Action.Tracks (Mapped g p Q) p Q (onPins x) (onPins y) := by
  refine h.zoom ?_ ?_
  · rintro _ c ⟨rfl, -⟩
    rfl
  · rintro _ c r s ⟨rfl, h_time⟩ rfl
    exact ⟨rfl, h_time⟩

theorem tracks_armCompare (value : Count) :
    Action.Tracks (Mapped g p Q) p Q (armCompare value : Action (Bench P) Unit)
      (armCompare value) := by
  refine .bind (.modify ?_) fun _ => .get_bind ?_
  · rintro _ c ⟨rfl, h_time⟩
    exact ⟨rfl, h_time⟩
  · rintro _ c ⟨rfl, h_time⟩
    refine .liftM_bind (h_time.tracks_add _ _ _) fun limit h_limit => ?_
    exact tracks_onClock (Clock.tracks_passUntil (h_time.of_run_add h_limit))

end Bench

variable [PinBank P] [PinBank P']

/-- **Benches.** Benches on pins that track each other are boards that do. -/
theorem PinsTrack.board (h : PinsTrack g p Q) : BoardTracks (Bench.Mapped g p Q) p Q where
  startTimer := Bench.tracks_onClock Clock.tracks_start
  stopTimer := by
    rintro _ c ⟨rfl, h_time⟩
    exact ⟨rfl, h_time⟩
  counter := by
    rintro _ c ⟨rfl, h_time⟩
    exact Clock.tracks_counter h_time
  armCompare := Bench.tracks_armCompare
  disarmCompare := by
    rintro _ c ⟨rfl, h_time⟩
    exact ⟨rfl, h_time⟩
  takeOverflow := by
    rintro _ c ⟨rfl, h_time⟩
    exact ⟨rfl, rfl, h_time⟩
  takeCompare := by
    rintro _ c ⟨rfl, h_time⟩
    exact ⟨rfl, rfl, h_time⟩
  eligible := by
    rintro _ c ⟨rfl, -⟩
    exact h.eligible c.pins
  -- preparing a pin is a function of the pins alone
  configureOutput := by
    rintro _ c ⟨rfl, h_time⟩ pin -
    refine ⟨?_, h_time⟩
    exact congrArg (Bench.mk c.clock c.lag) (h.configureOutput pin c.pins).symm
  setHigh pin := by
    refine .get_bind ?_
    rintro _ c ⟨rfl, h_time⟩
    exact Bench.tracks_onPins (h.setHigh h_time pin)
  setLow pin := by
    refine .get_bind ?_
    rintro _ c ⟨rfl, h_time⟩
    exact Bench.tracks_onPins (h.setLow h_time pin)
  isHigh := by
    rintro _ c ⟨rfl, -⟩ pin
    exact h.isHigh c.pins pin

/-! ### Engines on benches -/

namespace Engine

omit [PinBank P] [PinBank P'] in
/-- What is done up to the time `ticks` from now. -/
theorem tracks_after_bind {α : Type} {x : Nat → Action (Engine (Bench P)) α}
    {y : Nat → Action (Engine (Bench P')) α} (ticks : Nat)
    (h : ∀ limit, InTime p Q limit →
      Action.Tracks (OnBoards (Bench.Mapped g p Q)) p Q (x limit) (y limit)) :
    Action.Tracks (OnBoards (Bench.Mapped g p Q)) p Q (do x (← (← get).after ticks))
      (do y (← (← get).after ticks)) := by
  refine .get_bind ?_
  rintro e _ ⟨c, ⟨h_board, h_time⟩, rfl⟩
  show Action.Tracks _ _ _ (liftM (e.board.clock.after ticks) >>= _)
    (liftM (c.clock.after ticks) >>= _)
  -- the limit is the same sum on both benches, and it fits in both profiles
  rw [h_board]
  exact .liftM_bind (h_time.tracks_add _ _ _) fun limit h_limit =>
    h limit (h_time.of_run_add h_limit)

omit [PinBank P] [PinBank P'] in
theorem tracks_advance (ticks : Nat) :
    Action.Tracks (OnBoards (Bench.Mapped g p Q)) p Q (advance ticks) (advance ticks) :=
  tracks_after_bind ticks fun _ h_limit =>
    tracks_onBoard (Bench.tracks_onClock (Clock.tracks_advanceUntil h_limit))

theorem tracks_serveNext (h : PinsTrack g p Q) {limit : Nat} (h_limit : InTime p Q limit) :
    Action.Tracks (OnBoards (Bench.Mapped g p Q)) p Q (serveNext limit) (serveNext limit) := by
  refine .bind (tracks_onBoard (Bench.tracks_onClock (Clock.tracks_advanceUntil h_limit)))
    fun event => ?_
  cases event with
  | true => exact .bind h.board.interrupt fun _ => .pure _
  | false => exact .pure _

theorem tracks_run (h : PinsTrack g p Q) (ticks : Nat) :
    Action.Tracks (OnBoards (Bench.Mapped g p Q)) p Q (run ticks) (run ticks) :=
  tracks_after_bind ticks fun _ h_limit => (tracks_serveNext h h_limit).repeatWhile _

/-- **Stops.** A stop that serves every interrupt while it waits is tracked as well. -/
theorem tracks_stopServing (h : PinsTrack g p Q) :
    Action.Tracks (OnBoards (Bench.Mapped g p Q)) p Q (stopWith .serving) (stopWith .serving) := by
  refine .get_bind ?_
  rintro e _ ⟨c, -, rfl⟩
  exact h.board.stop fun _ => .forM fun _ _ => tracks_run h _

/-- The engine with the pins of its bench mapped. -/
def mapPins (g : P' → P) (t : Engine (Bench P')) : Engine (Bench P) := t.onto (t.board.mapPins g)

omit [PinBank P] [PinBank P'] in
/-- What is done to the engine with its pins mapped can be done to the engine. -/
theorem exists_run_of_mapPins {α : Type} {x : Action (Engine (Bench P)) α}
    {y : Action (Engine (Bench P')) α} {t : Engine (Bench P')} {e' : Engine (Bench P)} {a : α}
    (h : Action.Tracks (OnBoards (Bench.Mapped g p Q)) p Q x y) (h_time : InTime p Q t.clock.now)
    (h_run : x.run p (t.mapPins g) = .ok a e') :
    ∃ t', (∀ q, Q q → y.run q t = .ok a t') ∧ t'.mapPins g = e' ∧ InTime p Q t'.clock.now := by
  obtain ⟨_, h_all, c, ⟨h_board, h_time'⟩, rfl⟩ := h ⟨t.board, ⟨rfl, h_time⟩, rfl⟩ h_run
  refine ⟨e'.onto c, h_all, ?_, h_time'⟩
  show e'.onto (c.mapPins g) = e'
  rw [← h_board]
  rfl

/-! ### Moments -/

omit [PinBank P] in
/-- **Runs without overflow.** What an engine on pins that track themselves does in the `debug`
profile without a trap, it does under both profiles. -/
theorem run_of_run_debug {α : Type} {e e' : Engine (Bench P)} {x : Action (Engine (Bench P)) α}
    {a : α} (h : Action.Tracks (OnBoards (Bench.Mapped (fun r : P => r) .debug fun _ => True))
      .debug (fun _ => True) x x)
    (h_now : e.clock.now < Clock.instants) (h_run : x.run .debug e = .ok a e') :
    (∀ q, x.run q e = .ok a e') ∧ e'.clock.now < Clock.instants := by
  obtain ⟨t, h_all, h_eq, h_time⟩ := exists_run_of_mapPins h (.of_lt h_now) h_run
  obtain rfl : t = e' := h_eq
  exact ⟨fun q => h_all q trivial, h_time.lt⟩

section Recorded

variable {e e' : Engine (Bench PinRecorder)}

theorem moment_of_run_advance {ticks : Nat} {event : Bool} (h_now : e.clock.now < Clock.instants)
    (h_run : (advance ticks).run .debug e = .ok event e') :
    Moment e e' ∧ e'.clock.now < Clock.instants := by
  obtain ⟨h_all, h_now'⟩ := run_of_run_debug (tracks_advance ticks) h_now h_run
  exact ⟨.advance h_all, h_now'⟩

theorem moment_of_run_interrupt (h_now : e.clock.now < Clock.instants)
    (h_run : interrupt.run .debug e = .ok () e') :
    Moment e e' ∧ e'.clock.now < Clock.instants := by
  obtain ⟨h_all, h_now'⟩ := run_of_run_debug PinRecorder.pinsTrack.board.interrupt h_now h_run
  exact ⟨.interrupt h_all, h_now'⟩

end Recorded

end Engine

end ServoPulse
