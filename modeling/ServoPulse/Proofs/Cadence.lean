import ServoPulse.Proofs.Ramps
import ServoPulse.Proofs.Serving
import ServoPulse.Proofs.Schedule

/-!
# The cadence of the periods

While every interrupt is served at once and arming takes no time, the turns that an engine counts
are those of the counter, and so the periods begin where the schedule has them, whatever the pins
do. `Paced` says this of a state, with the number `m` of the periods begun since the timer was
started: the turns so far, and one short of a period for the start, make `m` periods and the turns
counted in the present one.

Serving the next event either leaves that number and the panel alone, or begins one more period, and
then it is right at its start (`Paced.serve`).
-/

namespace ServoPulse

/-- The periods follow each other at the length of a period. -/
theorem periodStart_add (wraps origin j k : Nat) :
    periodStart wraps origin (j + k) = periodStart wraps origin j + k * (wraps * ticksPerWrap) := by
  simp only [periodStart, ticksPerWrap, Nat.add_mul, Nat.mul_add]
  have h_eq : k * (wraps * 65536) = 65536 * (k * wraps) := by
    rw [← Nat.mul_assoc, Nat.mul_comm]
  omega

theorem periodStart_mono {wraps origin j k : Nat} (h : j ≤ k) :
    periodStart wraps origin j ≤ periodStart wraps origin k := by
  obtain ⟨d, rfl⟩ := Nat.exists_eq_add_of_le h
  rw [periodStart_add]
  exact Nat.le_add_right _ _

/-- A jump of time ends within the present turn of the counter or right at its end. -/
theorem Clock.turn_of_advanceUntil {c c' : Clock} {limit : Nat} {event : Bool}
    (h_running : c.running = true) (h_flag : c.overflowPending = false)
    (h : (advanceUntil limit).run .debug c = .ok event c') :
    c'.turns = c.turns ∧ c'.overflowPending = false ∨
      event = true ∧ c'.turns = c.turns + 1 ∧ c'.overflowPending = true ∧
        c'.now = c.overflowAt := by
  obtain ⟨h_fits, h_reach⟩ := run_advanceUntil_debug_iff.1 h
  have h_origin := h_fits.origin_le h_running
  have h_passes := keeps_advanceUntil limit h
  by_cases h_lt : c'.now < c.overflowAt
  · -- the jump stays within the turn
    have h_same := h_passes.eq_of_lt_overflowAt h_origin h_lt
    refine .inl ⟨(count_of_lt_overflowAt h_origin h_passes.origin_eq h_passes.now_le h_lt).1, ?_⟩
    exact (congrArg Clock.overflowPending h_same).trans h_flag
  · -- the jump came to the end of the turn, and no further
    have h_event := c.eventAt_le_overflowAt
    have h_next := c.lt_overflowAt
    have h_near : c.eventAt ≤ limit := by
      by_contra h_far
      rw [reach, if_neg fun h_and => h_far h_and.2] at h_reach
      obtain rfl := congrArg Prod.snd h_reach
      change ¬max c.now limit < c.overflowAt at h_lt
      omega
    rw [reach, if_pos ⟨h_running, h_near⟩] at h_reach
    have h_now : c.eventAt = c'.now := congrArg (Clock.now ∘ Prod.snd) h_reach
    have h_at : c'.now = c.overflowAt := by omega
    have h_turns : c'.turns = c.turns + 1 := by
      rw [turns, h_at, overflowAt_eq h_origin, h_passes.origin_eq, Nat.add_sub_cancel_left,
        Nat.mul_div_cancel_left _ (by decide)]
    refine .inr ⟨(congrArg Prod.fst h_reach).symm, h_turns, ?_, h_at⟩
    exact h_passes.overflow_iff.2 (.inr ⟨h_running, h_turns ▸ Nat.lt_succ_self _⟩)

namespace Engine

variable {P : Type} {wraps origin m : Nat} {e e' : Engine (Bench P)}

/-- A running engine without lag that has begun `m` periods since its timer was started at the time
`origin`, and has counted every turn of the counter. -/
structure Paced (wraps origin m : Nat) (e : Engine (Bench P)) : Prop where
  lag_eq : e.board.lag = 0
  wraps_eq : e.config.wrapsPerPeriod.toNat = wraps
  started : e.started = true
  not_halted : e.phase ≠ .halted
  running : e.clock.running = true
  origin_eq : e.clock.origin = origin
  origin_le : origin ≤ e.clock.now
  overflow_flag : e.clock.overflowPending = false
  wrap_lt : e.wrap < wraps
  turns_eq : e.clock.turns + (wraps - 1) = m * wraps + e.wrap

namespace Paced

/-- Only the turns that are counted and the timer matter. -/
theorem of_same (h : Paced wraps origin m e) (h_lag : e'.board.lag = e.board.lag)
    (h_setup : e'.config = e.config ∧ e'.started = e.started) (h_phase : e'.phase ≠ .halted)
    (h_clock : e'.clock.running = e.clock.running ∧ e'.clock.origin = e.clock.origin)
    (h_flag : e'.clock.overflowPending = false) (h_now : e.clock.now ≤ e'.clock.now)
    (h_turns : e'.clock.turns = e.clock.turns) (h_wrap : e'.wrap = e.wrap) :
    Paced wraps origin m e' where
  lag_eq := h_lag.trans h.lag_eq
  wraps_eq := h_setup.1 ▸ h.wraps_eq
  started := h_setup.2.trans h.started
  not_halted := h_phase
  running := h_clock.1.trans h.running
  origin_eq := h_clock.2.trans h.origin_eq
  origin_le := Nat.le_trans h.origin_le h_now
  overflow_flag := h_flag
  wrap_lt := h_wrap ▸ h.wrap_lt
  turns_eq := by
    rw [h_turns, h_wrap]
    exact h.turns_eq

/-- Arming the compare channel does not matter. -/
theorem of_timer (h : Paced wraps origin m e) (h_lag : e'.board.lag = e.board.lag)
    (h_setup : e'.config = e.config ∧ e'.started = e.started) (h_phase : e'.phase ≠ .halted)
    (h_timer : e'.clock.running = e.clock.running ∧ e'.clock.origin = e.clock.origin ∧
      e'.clock.overflowPending = e.clock.overflowPending ∧ e'.clock.now = e.clock.now)
    (h_wrap : e'.wrap = e.wrap) : Paced wraps origin m e' := by
  obtain ⟨h_running, h_origin, h_flag, h_now⟩ := h_timer
  refine h.of_same h_lag h_setup h_phase ⟨h_running, h_origin⟩ (h_flag.trans h.overflow_flag)
    (Nat.le_of_eq h_now.symm) ?_ h_wrap
  rw [Clock.turns, h_now, h_origin, Clock.turns]

/-- The periods that have begun are those that the schedule has by now. -/
theorem periodStart_le_iff (h : Paced wraps origin m e) (j : Nat) :
    periodStart wraps origin j ≤ e.clock.now ↔ j < m := by
  have h_turns := h.turns_eq
  have h_wrap := h.wrap_lt
  rw [ServoPulse.periodStart_le_iff h.origin_le]
  rw [Clock.turns, h.origin_eq] at h_turns
  constructor
  · -- a period that has not begun starts more turns after the origin than have gone by
    intro h_le
    by_contra h_not
    have h_mul : m * wraps ≤ j * wraps := Nat.mul_le_mul_right _ (Nat.le_of_not_lt h_not)
    omega
  · -- a period that has begun starts a whole period before the next one, or more
    intro h_lt
    have h_mul : (j + 1) * wraps ≤ m * wraps := Nat.mul_le_mul_right _ h_lt
    rw [Nat.add_one_mul] at h_mul
    omega

variable [PinBank P] [FixedBank P]

omit [FixedBank P] in
/-- Settling the queue takes no time. -/
theorem fallDue (h : Paced wraps origin m e) (h_run : Engine.fallDue.run .debug e = .ok () e') :
    Paced wraps origin m e' ∧ e'.clock.now = e.clock.now := by
  have h_stable : SettleStable fun t : Engine (Bench P) =>
      Paced wraps origin m t ∧ t.clock.now = e.clock.now := by
    refine ⟨fun {t t' f rest} ⟨h_t, h_now⟩ _ _ _ h_lower => ?_,
      fun {t f rest limit clock} ⟨h_t, h_now⟩ _ _ _ h_limit h_pass => ?_⟩
    · -- lowering a pin takes no time
      obtain ⟨pins, -, rfl⟩ := run_lower_eq_ok_iff.1 h_lower
      exact ⟨h_t.of_timer rfl ⟨rfl, rfl⟩ h_t.not_halted ⟨rfl, rfl, rfl, rfl⟩ rfl, h_now⟩
    · -- and neither does arming the compare channel, without lag
      obtain ⟨-, rfl⟩ := Checked.run_add_debug_iff.1 h_limit
      rw [h_t.lag_eq] at h_pass
      obtain rfl := Clock.passUntil_eq_of_le h_pass (Nat.le_refl _)
      exact ⟨h_t.of_timer rfl ⟨rfl, rfl⟩ h_t.not_halted ⟨rfl, rfl, rfl, rfl⟩ rfl, h_now⟩
  obtain ⟨t, ⟨h_t, h_now⟩, h_end⟩ := settled_of_run_fallDue h_stable ⟨h, rfl⟩ h_run
  refine ⟨?_, ?_⟩
  · -- how settling ends concerns the compare channel and the phase
    cases h_end with
    | empty =>
      exact h_t.of_timer rfl ⟨rfl, rfl⟩ nofun ⟨rfl, rfl, rfl, rfl⟩ rfl
    | later =>
      exact h_t.of_timer rfl ⟨rfl, rfl⟩ h_t.not_halted ⟨rfl, rfl, rfl, rfl⟩ rfl
    | armed => exact h_t
  · cases h_end <;> exact h_now

/-- What serving the next event does to a paced engine: at most it begins one more period, right
when the schedule has it. -/
def Next (wraps origin m : Nat) (e e' : Engine (Bench P)) : Prop :=
  Paced wraps origin m e' ∧ e'.panel = e.panel ∨
    Paced wraps origin (m + 1) e' ∧ e'.panel = e.panel.begun ∧
      e'.clock.now = periodStart wraps origin m

/-- Settling adds nothing to what the event has done. -/
theorem Next.fallDue {t : Engine (Bench P)} (h : Next wraps origin m e t)
    (h_run : Engine.fallDue.run .debug t = .ok () e') : Next wraps origin m e e' := by
  have h_panel {k : Nat} (h_t : Paced wraps origin k t) : e'.panel = t.panel :=
    (ends_fallDue (decide_eq_false h_t.not_halted)).of_run h_run
  rcases h with ⟨h_t, h_same⟩ | ⟨h_t, h_begun, h_start⟩
  · exact .inl ⟨(h_t.fallDue h_run).1, (h_panel h_t).trans h_same⟩
  · obtain ⟨h_e', h_now⟩ := h_t.fallDue h_run
    exact .inr ⟨h_e', (h_panel h_t).trans h_begun, h_now.trans h_start⟩

omit [PinBank P] [FixedBank P] in
/-- An engine that has counted the end of a turn is paced if the turns so far make whole periods and
the turns that it counts in the present one. -/
theorem of_turn {k : Nat} (h : Paced wraps origin m e) (h_lag : e'.board.lag = e.board.lag)
    (h_setup : e'.config = e.config ∧ e'.started = e.started) (h_phase : e'.phase ≠ .halted)
    (h_clock : e'.clock.running = true ∧ e'.clock.origin = origin ∧
      e'.clock.overflowPending = false)
    (h_now : e'.clock.now = e.clock.overflowAt) (h_wrap : e'.wrap < wraps)
    (h_turns : e'.clock.turns + (wraps - 1) = k * wraps + e'.wrap) :
    Paced wraps origin k e' where
  lag_eq := h_lag.trans h.lag_eq
  wraps_eq := h_setup.1 ▸ h.wraps_eq
  started := h_setup.2.trans h.started
  not_halted := h_phase
  running := h_clock.1
  origin_eq := h_clock.2.1
  -- the end of a turn is in the future
  origin_le := by
    rw [h_now]
    exact Nat.le_trans h.origin_le (Nat.le_of_lt e.clock.lt_overflowAt)
  overflow_flag := h_clock.2.2
  wrap_lt := h_wrap
  turns_eq := h_turns

/-- The end of a turn is counted, and begins a period if the turn was the last one. -/
theorem turn (h : Paced wraps origin m e) (clock : Clock)
    (h_clock : clock.running = true ∧ clock.origin = origin ∧ clock.overflowPending = false)
    (h_turns : clock.turns = e.clock.turns + 1) (h_now : clock.now = e.clock.overflowAt)
    (h_run : Engine.turn.run .debug (e.withClock clock) = .ok () e') :
    Next wraps origin m e e' := by
  have h_width := e.config.wrapsPerPeriod.toNat_lt
  have h_wrap := h.wrap_lt
  have h_counted := h.turns_eq
  rcases run_turn_eq_ok h_run with ⟨h_more, rfl⟩ | ⟨h_last, h_begin⟩
  · -- the period goes on; eight bits are enough for its turns
    change min (e.wrap + 1) 255 < e.config.wrapsPerPeriod.toNat at h_more
    rw [h.wraps_eq] at h_more h_width
    refine .inl ⟨h.of_turn rfl ⟨rfl, rfl⟩ h.not_halted h_clock h_now h_more ?_, rfl⟩
    change clock.turns + (wraps - 1) = m * wraps + min (e.wrap + 1) 255
    omega
  · -- the turns so far make whole periods
    change e.config.wrapsPerPeriod.toNat ≤ min (e.wrap + 1) 255 at h_last
    rw [h.wraps_eq] at h_last
    have h_begun := periodBegun_of_run h_begin
    have h_panel : e'.panel = e.panel.begun :=
      (ends_beginPeriod (e := { e.withClock clock with wrap := 0 })
        (decide_eq_false h.not_halted)).of_run h_begin
    have h_halted : e'.panel.halted = false := by
      rw [h_panel]
      exact decide_eq_false h.not_halted
    have h_same : e'.clock = clock := h_begun.clock_eq
    rw [← h_same] at h_clock h_turns h_now
    refine .inr ⟨?_, h_panel, ?_⟩
    · refine h.of_turn h_begun.lag_eq h_begun.setup_eq (of_decide_eq_false h_halted) h_clock h_now
        ?_ ?_
      · rw [h_begun.wrap_eq]
        exact Nat.zero_lt_of_lt h_wrap
      · rw [h_begun.wrap_eq, Nat.add_one_mul]
        change e'.clock.turns + (wraps - 1) = m * wraps + wraps + 0
        omega
    · -- the turns end where the period starts
      have h_whole : e.clock.turns + 1 = 1 + m * wraps := by omega
      rw [h_now, Clock.overflowAt_eq (h.origin_eq.symm ▸ h.origin_le), h.origin_eq, h_whole]
      rfl

/-- **Cadence.** Serving the next event keeps an engine paced. -/
theorem serve {limit : Nat} {event : Bool} (h : Paced wraps origin m e)
    (h_run : (serveNext limit).run .debug e = .ok event e') : Next wraps origin m e e' := by
  obtain ⟨clock, h_advance, h_rest⟩ := run_serveNext_eq_ok h_run
  have h_passes := Clock.keeps_advanceUntil limit h_advance
  have h_running : clock.running = true := h_passes.running_eq.trans h.running
  have h_origin : clock.origin = origin := h_passes.origin_eq.trans h.origin_eq
  rcases Clock.turn_of_advanceUntil h.running h.overflow_flag h_advance with
    ⟨h_turns, h_flag⟩ | ⟨rfl, h_turns, h_flag, h_now⟩
  · -- within the turn no period begins
    have h_clock : Paced wraps origin m (e.withClock clock) :=
      h.of_same rfl ⟨rfl, rfl⟩ h.not_halted ⟨h_passes.running_eq, h_passes.origin_eq⟩ h_flag
        h_passes.now_le h_turns rfl
    rcases h_rest with ⟨-, rfl⟩ | ⟨-, h_serve⟩
    · -- no event came
      exact .inl ⟨h_clock, rfl⟩
    · have h_quiet : Paced wraps origin m (e.withClock clock).quiet :=
        h_clock.of_same rfl ⟨rfl, rfl⟩ h.not_halted ⟨rfl, rfl⟩ rfl (Nat.le_refl _) rfl rfl
      rcases run_interrupt_eq_ok h_serve with ⟨-, rfl⟩ | ⟨-, -, h_fall⟩ | ⟨-, h_over, -⟩
      · -- a halted engine, or no flag that is up
        exact .inl ⟨h_quiet, rfl⟩
      · -- a match of the compare channel
        exact Next.fallDue (.inl ⟨h_quiet, rfl⟩) h_fall
      · exact Bool.noConfusion (h_over.symm.trans h_flag)
  · -- the turn is over, and its overflow is answered at once
    obtain ⟨h_event, -⟩ | ⟨-, h_serve⟩ := h_rest
    · exact Bool.noConfusion h_event
    obtain ⟨t, h_turn, h_fall⟩ := run_interrupt_of_overflow h_serve h.not_halted h_flag
    have h_next := h.turn { clock with overflowPending := false, comparePending := false }
      ⟨h_running, h_origin, rfl⟩ h_turns h_now h_turn
    exact h_next.fallDue h_fall

end Paced

/-! ### Coasting on time -/

variable [PinBank P] {p : Profile} {k limit : Nat} {event : Bool} {t t' : Engine (Bench P)}

theorem Coasts.serve (h : Coasts p e k t) (h_run : (serveNext limit).run p t = .ok event t') :
    Coasts p e (k + t'.periodsSince t.periods) t' := by
  obtain ⟨clock, -, ⟨-, rfl⟩ | ⟨-, h_serve⟩⟩ := run_serveNext_eq_ok h_run
  · have h_none : (t.withClock clock).periodsSince t.periods = 0 := periodsSince_of_eq rfl
    rw [h_none]
    exact h.board rfl
  · have h_time : Coasts p e k (t.withClock clock) := h.board rfl
    exact h_time.interrupt h_serve

/-- While an engine coasts on time, its periods begin one after the other. -/
theorem Paced.serve_coasts [FixedBank P] (h : Paced wraps origin (m + k) t)
    (h_coasts : Coasts p e k t) (h_debug : (serveNext limit).run .debug t = .ok event t')
    (h_run : (serveNext limit).run p t = .ok event t') :
    ∃ k', Coasts p e k' t' ∧ Paced wraps origin (m + k') t' := by
  refine ⟨_, h_coasts.serve h_run, ?_⟩
  rcases h.serve h_debug with ⟨h_t', h_same⟩ | ⟨h_t', h_begun, -⟩
  · rw [periodsSince_of_eq h_same]
    exact h_t'
  · rw [periodsSince_of_begun h_begun]
    exact h_t'

end Engine

end ServoPulse
