import ServoPulse.Proofs.Cadence
import ServoPulse.Proofs.NoEarlyFall

/-!
# Periods never come early

An overflow that is not served waits, and one that comes meanwhile is lost in it. So an engine may
count fewer turns than the counter makes, and never more: what it has counted, with the overflow
that waits to be, is at most what has passed (`Counted.behind`). A period that begins has counted
all its turns, so the overflow with which it begins is at least a whole period after the one before
(`period_spacing`), in whatever pattern the interrupts are served and however long it takes to arm
the compare channel.

A `LiveRun` is a run from a start of the timer on, up to the next stop; while a stop waits, it is
still going on. It keeps the overflows with which its periods began. Where time passes only while no
flag is up and arming takes none, no overflow is lost, and all periods are equally long.
-/

namespace ServoPulse

/-! ### Turns and flags -/

namespace Clock

/-- An overflow that comes while another one waits is lost in it. -/
theorem Passes.turns_pending {c c' : Clock} (h : Passes c c') :
    c.turns + c'.overflowPending.toNat ≤ c'.turns + c.overflowPending.toNat := by
  have h_turns := h.turns_le
  have h_flag := h.overflow_iff
  cases h_new : c'.overflowPending with
  | false => exact Nat.le_trans h_turns (Nat.le_add_right _ _)
  | true =>
    -- the flag was up before, or a turn was completed meanwhile
    rcases h_flag.1 h_new with h_old | ⟨-, h_lt⟩
    · rw [h_old]
      exact Nat.add_le_add_right h_turns _
    · exact Nat.le_trans h_lt (Nat.le_add_right _ _)

/-- The overflows of a jump of time from a state in which none waits are not lost: it comes to one
at most. -/
theorem turns_of_advanceUntil {c c' : Clock} {limit : Nat} {event : Bool}
    (h_running : c.running = true) (h_flag : c.overflowPending = false)
    (h : (advanceUntil limit).run .debug c = .ok event c') :
    c'.turns = c.turns + c'.overflowPending.toNat := by
  rcases turn_of_advanceUntil h_running h_flag h with ⟨h_turns, h_none⟩ | ⟨-, h_turns, h_some, -⟩
  · rw [h_turns, h_none]
    rfl
  · rw [h_turns, h_some]
    rfl

end Clock

/-! ### Spacing -/

/-- The first of some times is at the first overflow after `origin` and each later one a period of
`wraps` turns after the one before, both up to `R`: exactly for `(· = ·)`, and at the earliest for
`(· ≤ ·)`. -/
structure Spaced (R : Nat → Nat → Prop) (wraps origin : Nat) (times : List Nat) : Prop where
  first : ∀ t, times[0]? = some t → R (origin + ticksPerWrap) t
  next : ∀ k s t, times[k]? = some s → times[k + 1]? = some t → R (s + ticksPerWrap * wraps) t

/-- Where the next of some spaced times is, up to the same. -/
def nextSpaced (wraps origin : Nat) (times : List Nat) : Nat :=
  match times.getLast? with
  | none => origin + ticksPerWrap
  | some last => last + ticksPerWrap * wraps

theorem nextSpaced_concat (wraps origin : Nat) (times : List Nat) (t : Nat) :
    nextSpaced wraps origin (times ++ [t]) = t + ticksPerWrap * wraps := by
  rw [nextSpaced, List.getLast?_concat]

theorem Spaced.nil (R : Nat → Nat → Prop) (wraps origin : Nat) : Spaced R wraps origin [] :=
  ⟨nofun, nofun⟩

/-- Times that are spaced still are with one more that keeps its distance from the last one. -/
theorem Spaced.concat {R : Nat → Nat → Prop} {wraps origin t : Nat} {times : List Nat}
    (h : Spaced R wraps origin times) (h_next : R (nextSpaced wraps origin times) t) :
    Spaced R wraps origin (times ++ [t]) where
  first u h_u := by
    cases times with
    | nil =>
      obtain rfl := Option.some.inj h_u
      exact h_next
    | cons s times => exact h.first u h_u
  next k s u h_s h_u := by
    by_cases h_old : k + 1 < times.length
    · -- both times were there before
      rw [List.getElem?_append_left (by omega)] at h_s
      rw [List.getElem?_append_left h_old] at h_u
      exact h.next k s u h_s h_u
    · -- the later one of the two is the new one
      have h_bound := (List.getElem?_eq_some_iff.1 h_u).1
      rw [List.length_append, List.length_singleton] at h_bound
      have h_k : k + 1 = times.length := by omega
      rw [h_k, List.getElem?_concat_length] at h_u
      obtain rfl := Option.some.inj h_u
      rw [List.getElem?_append_left (by omega)] at h_s
      have h_last : times.getLast? = some s := by
        rw [List.getLast?_eq_getElem?, ← h_k, Nat.add_sub_cancel, h_s]
      rw [nextSpaced, h_last] at h_next
      exact h_next

namespace Engine

variable {P : Type}

/-! ### Runs between a start and a stop -/

/-- The overflow with which the interrupt from `e` to `e'` began a period, if it began one: the
last one by the time at which it took the flag. -/
def periodOverflow (e e' : Engine (Bench P)) : List Nat :=
  if e'.periods = e.periods then [] else [e.clock.lastOverflow e.clock.now]

/-- The runs of an engine from a start of its timer up to the next stop; `overflows` are those with
which the periods of the run began, in their order. Commands and further starts may come at any
time. In a `prompt` run every flag is served before time goes on, and otherwise an interrupt may be
served at any time, or never. -/
inductive LiveRun [PinBank P] (p : Profile) (prompt : Bool) (e₀ : Engine (Bench P)) :
    (overflows : List Nat) → Engine (Bench P) → Prop
  | first {pins? : Option (List Nat)} {e : Engine (Bench P)} (h_off : e₀.started = false)
      (h : (Engine.start pins?).run p e₀ = .ok (.ok ()) e) : LiveRun p prompt e₀ [] e
  | advance {overflows : List Nat} {e e' : Engine (Bench P)} {ticks : Nat} {event : Bool}
      (h_run : LiveRun p prompt e₀ overflows e)
      (h_served : prompt = true → e.clock.hasPending = false)
      (h : (Engine.advance ticks).run .debug e = .ok event e') : LiveRun p prompt e₀ overflows e'
  | interrupt {overflows : List Nat} {e e' : Engine (Bench P)}
      (h_run : LiveRun p prompt e₀ overflows e) (h : Engine.interrupt.run .debug e = .ok () e') :
      LiveRun p prompt e₀ (overflows ++ e.periodOverflow e') e'
  | command {overflows : List Nat} {e e' : Engine (Bench P)} {k : Command}
      (h_run : LiveRun p prompt e₀ overflows e) (h : k.exec.EndsIn p e e') :
      LiveRun p prompt e₀ overflows e'
  | start {overflows : List Nat} {e e' : Engine (Bench P)} {pins? : Option (List Nat)}
      {r : Except StartError Unit} (h_run : LiveRun p prompt e₀ overflows e)
      (h : (Engine.start pins?).run p e = .ok r e') : LiveRun p prompt e₀ overflows e'

/-! ### Turns counted and turns made -/

/-- A running engine of which the next period begins with the overflow at `next` at the earliest,
and with no other if interrupts are prompt and arming takes no time. -/
structure Counted (prompt : Bool) (wraps origin lag next : Nat) (e : Engine (Bench P)) : Prop where
  wraps_eq : e.config.wrapsPerPeriod.toNat = wraps
  lag_eq : e.board.lag = lag
  started : e.started = true
  not_halted : e.phase ≠ .halted
  running : e.clock.running = true
  origin_eq : e.clock.origin = origin
  /-- The turns counted and waiting are at most those made. -/
  behind : next + ticksPerWrap * (e.wrap + e.clock.overflowPending.toNat) ≤
    origin + ticksPerWrap * (e.clock.turns + wraps)
  exact : prompt = true → lag = 0 → e.wrap < wraps ∧
    origin + ticksPerWrap * (e.clock.turns + wraps) ≤
      next + ticksPerWrap * (e.wrap + e.clock.overflowPending.toNat)

namespace Counted

variable {p : Profile} {prompt : Bool} {wraps origin lag next : Nat} {e e' : Engine (Bench P)}

/-- Only the turns and the overflow flag matter. -/
theorem of_same (h : Counted prompt wraps origin lag next e) (h_lag : e'.board.lag = e.board.lag)
    (h_setup : e'.config = e.config ∧ e'.started = e.started) (h_phase : e'.phase ≠ .halted)
    (h_clock : e'.clock.running = e.clock.running ∧ e'.clock.origin = e.clock.origin ∧
      e'.clock.now = e.clock.now ∧ e'.clock.overflowPending = e.clock.overflowPending)
    (h_wrap : e'.wrap = e.wrap) : Counted prompt wraps origin lag next e' := by
  obtain ⟨h_running, h_origin, h_now, h_flag⟩ := h_clock
  -- the time since the origin is the same, and with it the turns
  have h_turns : e'.clock.turns = e.clock.turns := by rw [Clock.turns, h_now, h_origin, Clock.turns]
  refine ⟨h_setup.1 ▸ h.wraps_eq, h_lag.trans h.lag_eq, h_setup.2.trans h.started, h_phase,
    h_running.trans h.running, h_origin.trans h.origin_eq, ?_, ?_⟩
  · rw [h_wrap, h_flag, h_turns]
    exact h.behind
  · rw [h_wrap, h_flag, h_turns]
    exact h.exact

/-- Time passes: of the turns that are made meanwhile, one at most waits to be counted. -/
theorem passes (h : Counted prompt wraps origin lag next e) {c clock : Clock}
    (h_c : c.running = e.clock.running ∧ c.origin = e.clock.origin ∧ c.turns = e.clock.turns ∧
      c.overflowPending = e.clock.overflowPending)
    (h_pass : Clock.Passes c clock)
    (h_exact : prompt = true → lag = 0 →
      clock.turns + e.clock.overflowPending.toNat ≤ e.clock.turns + clock.overflowPending.toNat) :
    Counted prompt wraps origin lag next (e.withClock clock) := by
  obtain ⟨h_running, h_origin, h_turns, h_flag⟩ := h_c
  have h_pending := h_pass.turns_pending
  rw [h_turns, h_flag] at h_pending
  refine ⟨h.wraps_eq, h.lag_eq, h.started, h.not_halted,
    (h_pass.running_eq.trans h_running).trans h.running,
    (h_pass.origin_eq.trans h_origin).trans h.origin_eq, ?_, fun h_prompt h_lag => ?_⟩
  · -- a flag that comes up is paid for by a completed turn
    have h_behind := h.behind
    change next + ticksPerWrap * (e.wrap + clock.overflowPending.toNat) ≤
      origin + ticksPerWrap * (clock.turns + wraps)
    simp only [ticksPerWrap] at *
    omega
  · -- no turn was completed without raising the flag
    obtain ⟨h_wrap, h_ahead⟩ := h.exact h_prompt h_lag
    have h_still := h_exact h_prompt h_lag
    refine ⟨h_wrap, ?_⟩
    change origin + ticksPerWrap * (clock.turns + wraps) ≤
      next + ticksPerWrap * (e.wrap + clock.overflowPending.toNat)
    simp only [ticksPerWrap] at *
    omega

/-- The timer starts in the last turn of a period, so its first overflow begins one. -/
theorem initial {starts : Nat} (h_valid : e.config.validate = .ok ()) :
    Counted prompt e.config.wrapsPerPeriod.toNat e.clock.now e.board.lag
      (e.clock.now + ticksPerWrap) (e.launched starts) := by
  have h_pos := (e.config.validate_eq_ok_iff.1 h_valid).1
  -- no turn is completed at the launch
  have h_turns : (e.launched starts).clock.turns = 0 := by
    change (e.clock.now - e.clock.now) / ticksPerWrap = 0
    rw [Nat.sub_self, Nat.zero_div]
  -- the count starts at its last value, so that the first overflow begins a period
  have h_last : e.clock.now + ticksPerWrap + ticksPerWrap *
      (e.config.wrapsPerPeriod.toNat - 1 + 0) =
      e.clock.now + ticksPerWrap * (0 + e.config.wrapsPerPeriod.toNat) := by
    simp only [ticksPerWrap]
    omega
  refine ⟨rfl, rfl, rfl, nofun, rfl, rfl, ?_, fun _ _ => ⟨Nat.sub_lt h_pos Nat.one_pos, ?_⟩⟩
  · rw [h_turns]
    exact Nat.le_of_eq h_last
  · rw [h_turns]
    exact Nat.le_of_eq h_last.symm

variable [PinBank P]

/-- Settling the queue takes the time that arming takes, and counts nothing. -/
theorem fallDue (h : Counted prompt wraps origin lag next e)
    (h_run : Engine.fallDue.run .debug e = .ok () e') :
    Counted prompt wraps origin lag next e' ∧ e'.periods = e.periods := by
  have h_stable : SettleStable fun t : Engine (Bench P) =>
      Counted prompt wraps origin lag next t ∧ t.periods = e.periods := by
    refine ⟨fun {t t' f rest} ⟨h_t, h_periods⟩ _ _ _ h_lower => ?_,
      fun {t f rest limit clock} ⟨h_t, h_periods⟩ _ _ _ h_limit h_pass => ⟨?_, h_periods⟩⟩
    · -- lowering a fall takes no time
      obtain ⟨pins, -, rfl⟩ := run_lower_eq_ok_iff.1 h_lower
      exact ⟨h_t.of_same rfl ⟨rfl, rfl⟩ h_t.not_halted ⟨rfl, rfl, rfl, rfl⟩ rfl, h_periods⟩
    · refine h_t.passes (c := t.clock.arm f.compareValue) ⟨rfl, rfl, rfl, rfl⟩
        (Clock.keeps_passUntil limit h_pass) fun _ h_lag => ?_
      -- without lag the limit is where the clock stands
      obtain ⟨-, rfl⟩ := Checked.run_add_debug_iff.1 h_limit
      rw [h_t.lag_eq, h_lag] at h_pass
      obtain rfl := Clock.passUntil_eq_of_le h_pass (Nat.le_refl _)
      exact Nat.le_refl _
  obtain ⟨t, ⟨h_t, h_periods⟩, h_end⟩ := settled_of_run_fallDue h_stable ⟨h, rfl⟩ h_run
  -- none of the three ends moves the clock
  cases h_end with
  | empty => exact ⟨h_t.of_same rfl ⟨rfl, rfl⟩ nofun ⟨rfl, rfl, rfl, rfl⟩ rfl, h_periods⟩
  | later => exact ⟨h_t.of_same rfl ⟨rfl, rfl⟩ h_t.not_halted ⟨rfl, rfl, rfl, rfl⟩ rfl, h_periods⟩
  | armed => exact ⟨h_t, h_periods⟩

/-- What an interrupt does: at most it begins one period, with the overflow that is the last one
when it is served. -/
def Next (prompt : Bool) (wraps origin lag next : Nat) (e e' : Engine (Bench P)) : Prop :=
  e'.periods = e.periods ∧ Counted prompt wraps origin lag next e' ∨
    e'.periods = e.periods + 1 ∧ next ≤ e.clock.lastOverflow e.clock.now ∧
      (prompt = true → lag = 0 → next = e.clock.lastOverflow e.clock.now) ∧
      Counted prompt wraps origin lag
        (e.clock.lastOverflow e.clock.now + ticksPerWrap * wraps) e'

omit [PinBank P] in
theorem lastOverflow_eq (h : Counted prompt wraps origin lag next e) :
    e.clock.lastOverflow e.clock.now = origin + ticksPerWrap * e.clock.turns := by
  rw [Clock.lastOverflow, Clock.turns, h.origin_eq]

omit [PinBank P] in
/-- A turn that does not end the period is counted, and waits no longer. -/
theorem count (h : Counted prompt wraps origin lag next e) (h_flag : e.clock.overflowPending = true)
    (h_more : e.wrap + 1 < wraps) :
    Counted prompt wraps origin lag next { e.quiet with wrap := e.wrap + 1 } := by
  have h_behind := h.behind
  have h_exact := h.exact
  rw [h_flag] at h_behind h_exact
  exact ⟨h.wraps_eq, h.lag_eq, h.started, h.not_halted, h.running, h.origin_eq, h_behind,
    fun h_prompt h_lag => ⟨h_more, (h_exact h_prompt h_lag).2⟩⟩

omit [PinBank P] in
/-- Once all turns of a period are counted, the next one is due, and it is due with the overflow
that ends it if none was lost. -/
theorem due (h : Counted prompt wraps origin lag next e) (h_flag : e.clock.overflowPending = true)
    (h_over : wraps ≤ e.wrap + 1) :
    next ≤ e.clock.lastOverflow e.clock.now ∧
      (prompt = true → lag = 0 → next = e.clock.lastOverflow e.clock.now) := by
  have h_behind := h.behind
  have h_exact := h.exact
  rw [h_flag] at h_behind h_exact
  rw [h.lastOverflow_eq]
  refine ⟨?_, fun h_prompt h_lag => ?_⟩
  · -- the overflow may be a later one than was due
    simp only [ticksPerWrap, Bool.toNat_true] at *
    omega
  · -- with prompt service it is the one that was due
    obtain ⟨h_wrap, h_ahead⟩ := h_exact h_prompt h_lag
    simp only [ticksPerWrap, Bool.toNat_true] at *
    omega

/-- Nothing of a new period is counted yet, and nothing waits. -/
theorem begun (h : Counted prompt wraps origin lag next e)
    (h_begin : beginPeriod.run .debug { e.quiet with wrap := 0 } = .ok () e') :
    e'.periods = e.periods + 1 ∧ Counted prompt wraps origin lag
      (e.clock.lastOverflow e.clock.now + ticksPerWrap * wraps) e' := by
  have h_begun := periodBegun_of_run h_begin
  have h_clock : e'.clock = e.quiet.clock := h_begun.clock_eq
  -- the next period is due a whole period after this overflow
  have h_even : origin + ticksPerWrap * e.clock.turns + ticksPerWrap * wraps +
      ticksPerWrap * (0 + 0) = origin + ticksPerWrap * (e.clock.turns + wraps) := by
    simp only [ticksPerWrap]
    omega
  -- the period that has begun is idle or emitting
  have h_phase : e'.periods = e.periods + 1 ∧ e'.phase ≠ .halted := by
    obtain ⟨low, high, -, -, rfl⟩ := run_beginPeriod_eq_ok h_begin
    refine ⟨rfl, ?_⟩
    dsimp only
    split
    · exact Phase.noConfusion
    · exact Phase.noConfusion
  rw [h.lastOverflow_eq]
  refine ⟨h_phase.1, h_begun.setup_eq.1 ▸ h.wraps_eq, h_begun.lag_eq.trans h.lag_eq,
    h_begun.setup_eq.2.trans h.started, h_phase.2, h_clock ▸ h.running, h_clock ▸ h.origin_eq,
    ?_, fun h_prompt h_lag => ?_⟩
  · rw [h_clock, h_begun.wrap_eq]
    exact Nat.le_of_eq h_even
  · rw [h_clock, h_begun.wrap_eq]
    exact ⟨Nat.zero_lt_of_lt (h.exact h_prompt h_lag).1, Nat.le_of_eq h_even.symm⟩

/-- Counting the overflow that waits. The last turn of a period begins the next one. -/
theorem turn (h : Counted prompt wraps origin lag next e) (h_flag : e.clock.overflowPending = true)
    (h_run : Engine.turn.run .debug e.quiet = .ok () e') :
    Next prompt wraps origin lag next e e' := by
  have h_width := e.config.wrapsPerPeriod.toNat_lt
  rw [h.wraps_eq] at h_width
  rcases run_turn_eq_ok h_run with ⟨h_more, rfl⟩ | ⟨h_over, h_begin⟩
  · -- a count below the turns of a period has not reached its own limit
    change min (e.wrap + 1) 255 < e.config.wrapsPerPeriod.toNat at h_more
    rw [h.wraps_eq] at h_more
    have h_count : min (e.wrap + 1) 255 = e.wrap + 1 := by omega
    change Next _ _ _ _ _ e { e.quiet with wrap := min (e.wrap + 1) 255 }
    rw [h_count]
    exact .inl ⟨rfl, h.count h_flag (h_count ▸ h_more)⟩
  · -- the count has reached the length of a period
    change e.config.wrapsPerPeriod.toNat ≤ min (e.wrap + 1) 255 at h_over
    rw [h.wraps_eq] at h_over
    obtain ⟨h_le, h_eq⟩ := h.due h_flag (Nat.le_trans h_over (Nat.min_le_left _ _))
    obtain ⟨h_periods, h_e'⟩ := h.begun h_begin
    exact .inr ⟨h_periods, h_le, h_eq, h_e'⟩

/-- Settling comes after the count, and adds nothing to it. -/
theorem Next.fallDue {t : Engine (Bench P)} (h : Next prompt wraps origin lag next e t)
    (h_run : Engine.fallDue.run .debug t = .ok () e') : Next prompt wraps origin lag next e e' := by
  rcases h with ⟨h_same, h_t⟩ | ⟨h_begun, h_le, h_eq, h_t⟩
  · obtain ⟨h_e', h_periods⟩ := h_t.fallDue h_run
    exact .inl ⟨h_periods.trans h_same, h_e'⟩
  · obtain ⟨h_e', h_periods⟩ := h_t.fallDue h_run
    exact .inr ⟨h_periods.trans h_begun, h_le, h_eq, h_e'⟩

theorem interrupt (h : Counted prompt wraps origin lag next e)
    (h_run : Engine.interrupt.run .debug e = .ok () e') :
    Next prompt wraps origin lag next e e' := by
  -- without an overflow the count of turns is up to date
  have h_quiet (h_flag : e.clock.overflowPending = false) :
      Next prompt wraps origin lag next e e.quiet :=
    .inl ⟨rfl, h.of_same rfl ⟨rfl, rfl⟩ h.not_halted ⟨rfl, rfl, rfl, h_flag.symm⟩ rfl⟩
  rcases run_interrupt_eq_ok h_run with
    ⟨h_none, rfl⟩ | ⟨-, h_flag, h_fall⟩ | ⟨-, h_flag, t, h_turn, h_fall⟩
  · -- had there been an overflow, it would have been served
    refine h_quiet (Bool.eq_false_iff.2 fun h_flag => ?_)
    rcases h_none with h_halted | h_none
    · exact h.not_halted h_halted
    · rw [Clock.hasPending, h_flag, Bool.true_or] at h_none
      exact Bool.noConfusion h_none
  · exact (h_quiet h_flag).fallDue h_fall
  · -- settling leaves what the turn has counted
    exact (h.turn h_flag h_turn).fallDue h_fall

omit [PinBank P] in
theorem advance {ticks : Nat} {event : Bool} (h : Counted prompt wraps origin lag next e)
    (h_served : prompt = true → e.clock.hasPending = false)
    (h_run : (Engine.advance ticks).run .debug e = .ok event e') :
    Counted prompt wraps origin lag next e' ∧ e'.periods = e.periods := by
  obtain ⟨limit, clock, h_advance, rfl⟩ := run_advance_eq_ok h_run
  have h_passes := Clock.keeps_advanceUntil limit h_advance
  refine ⟨h.passes ⟨rfl, rfl, rfl, rfl⟩ h_passes fun h_prompt _ => ?_, rfl⟩
  -- all events were served, so no flag is left from before
  have h_none := Bool.or_eq_false_iff.1 (h_served h_prompt)
  rw [Clock.turns_of_advanceUntil h.running h_none.1 h_advance, h_none.1]
  exact Nat.le_refl _

omit [PinBank P] in
theorem command {k : Command} (h : Counted prompt wraps origin lag next e)
    (h_run : k.exec.EndsIn p e e') :
    Counted prompt wraps origin lag next e' ∧ e'.periods = e.periods := by
  rcases endsIn_exec h_run with rfl | ⟨moving, rfl⟩
  · exact ⟨h, rfl⟩
  · exact ⟨h.of_same rfl ⟨rfl, rfl⟩ h.not_halted ⟨rfl, rfl, rfl, rfl⟩ rfl, rfl⟩

theorem start {pins? : Option (List Nat)} {r : Except StartError Unit}
    (h : Counted prompt wraps origin lag next e)
    (h_run : (Engine.start pins?).run p e = .ok r e') :
    Counted prompt wraps origin lag next e' ∧ e'.periods = e.periods := by
  rcases run_start_eq_ok h_run with ⟨-, rfl⟩ | ⟨-, -, t, h_list, ⟨-, rfl⟩ | ⟨h_off, -⟩⟩
  · exact ⟨h, rfl⟩
  · cases h_list <;>
      exact ⟨h.of_same rfl ⟨rfl, rfl⟩ h.not_halted ⟨rfl, rfl, rfl, rfl⟩ rfl, rfl⟩
  · exact Bool.noConfusion (h.started.symm.trans h_off)

end Counted

variable [PinBank P] {p : Profile} {prompt : Bool} {e₀ e : Engine (Bench P)}
  {overflows : List Nat}

/-- After a live run that began its periods with the `overflows`, the engine has counted for what is
to come, its periods are those of the overflows, and these are spaced. -/
structure OnBeat (prompt : Bool) (e₀ : Engine (Bench P)) (overflows : List Nat)
    (e : Engine (Bench P)) : Prop where
  counted : Counted prompt e₀.config.wrapsPerPeriod.toNat e₀.clock.now e₀.board.lag
    (nextSpaced e₀.config.wrapsPerPeriod.toNat e₀.clock.now overflows) e
  periods_eq : e.periods = e₀.periods + UInt32.ofNat overflows.length
  spaced : Spaced (· ≤ ·) e₀.config.wrapsPerPeriod.toNat e₀.clock.now overflows
  exact : prompt = true → e₀.board.lag = 0 →
    Spaced (· = ·) e₀.config.wrapsPerPeriod.toNat e₀.clock.now overflows

namespace OnBeat

theorem first {pins? : Option (List Nat)} (h_off : e₀.started = false)
    (h : (Engine.start pins?).run p e₀ = .ok (.ok ()) e) : OnBeat prompt e₀ [] e := by
  rcases run_start_eq_ok h with ⟨⟨error, h_error⟩, -⟩ | ⟨-, h_valid, t, h_list, h_rest⟩
  · exact absurd h_error nofun
  -- the engine was off, and so it is launched
  rcases h_rest with ⟨h_on, -⟩ | ⟨-, starts, rfl⟩
  · exact Bool.noConfusion (h_off.symm.trans h_on)
  · -- a list changes neither the configuration nor the time
    have h_t : t.config = e₀.config ∧ t.clock.now = e₀.clock.now ∧
        t.board.lag = e₀.board.lag ∧ t.periods = e₀.periods := by
      cases h_list <;> exact ⟨rfl, rfl, rfl, rfl⟩
    obtain ⟨h_config, h_now, h_lag, h_periods⟩ := h_t
    refine ⟨?_, ?_, .nil .., fun _ _ => .nil ..⟩
    · rw [← h_config, ← h_now, ← h_lag]
      exact .initial (h_config ▸ h_valid)
    · exact h_periods.trans (UInt32.add_zero _).symm

omit [PinBank P] in
/-- What begins no period keeps the overflows. -/
theorem keep {e' : Engine (Bench P)} (h : OnBeat prompt e₀ overflows e)
    (h_e' : Counted prompt e₀.config.wrapsPerPeriod.toNat e₀.clock.now e₀.board.lag
      (nextSpaced e₀.config.wrapsPerPeriod.toNat e₀.clock.now overflows) e' ∧
        e'.periods = e.periods) : OnBeat prompt e₀ overflows e' where
  counted := h_e'.1
  periods_eq := h_e'.2.trans h.periods_eq
  spaced := h.spaced
  exact := h.exact

theorem interrupt {e' : Engine (Bench P)} (h : OnBeat prompt e₀ overflows e)
    (h_run : Engine.interrupt.run .debug e = .ok () e') :
    OnBeat prompt e₀ (overflows ++ e.periodOverflow e') e' := by
  rcases h.counted.interrupt h_run with ⟨h_same, h_e'⟩ | ⟨h_begun, h_le, h_eq, h_e'⟩
  · -- no period has begun, and no overflow is noted
    rw [periodOverflow, if_pos h_same, List.append_nil]
    exact h.keep ⟨h_e', h_same⟩
  · have h_ne : e'.periods ≠ e.periods := by
      rw [h_begun]
      simp
    rw [periodOverflow, if_neg h_ne]
    refine ⟨?_, ?_, h.spaced.concat h_le,
      fun h_prompt h_lag => (h.exact h_prompt h_lag).concat (h_eq h_prompt h_lag)⟩
    · -- the next period is a whole period after the one just begun
      rw [nextSpaced_concat]
      exact h_e'
    · -- one period more, and one overflow more
      rw [h_begun, h.periods_eq, List.length_append, List.length_singleton, UInt32.ofNat_add,
        ← UInt32.add_assoc]
      rfl

end OnBeat

theorem LiveRun.onBeat (h : LiveRun p prompt e₀ overflows e) : OnBeat prompt e₀ overflows e := by
  induction h with
  | first h_off h => exact .first h_off h
  | advance _ h_served h ih => exact ih.keep (ih.counted.advance h_served h)
  | command _ h ih => exact ih.keep (ih.counted.command h)
  | start _ h ih => exact ih.keep (ih.counted.start h)
  | interrupt _ h ih => exact ih.interrupt h

/-- **Period spacing.** However late interrupts are served, or not at all, and however long it takes
to arm the compare channel, the first period begins with the first overflow after the start of the
timer at the earliest, and each later one with the overflow a whole period after that of the one
before at the earliest. Where every interrupt is prompt and arming takes no time, they begin exactly
then. -/
theorem period_spacing (h : LiveRun p prompt e₀ overflows e) :
    e.periods = e₀.periods + UInt32.ofNat overflows.length ∧
    Spaced (· ≤ ·) e₀.config.wrapsPerPeriod.toNat e₀.clock.now overflows ∧
    (prompt = true → e₀.board.lag = 0 →
      Spaced (· = ·) e₀.config.wrapsPerPeriod.toNat e₀.clock.now overflows) :=
  ⟨h.onBeat.periods_eq, h.onBeat.spaced, h.onBeat.exact⟩

/-- The overflows and the state after one more operation of a live run, if it returns. -/
def Op.live? [DecidableEq P] (p : Profile) (prompt : Bool) (s : List Nat × Engine (Bench P)) :
    Op → Option (List Nat × Engine (Bench P))
  | .advance ticks =>
    if prompt && s.2.clock.hasPending then none
    else ((Engine.advance ticks).result? .debug s.2).map fun r => (s.1, r.2)
  | .interrupt =>
    (Engine.interrupt.result? .debug s.2).map fun r => (s.1 ++ s.2.periodOverflow r.2, r.2)
  | .start pins? => ((Engine.start pins?).result? p s.2).map fun r => (s.1, r.2)
  | .command k => (k.exec.result? p s.2).map fun r => (s.1, r.2)

theorem liveRun_of_live? [DecidableEq P] {ops : List Op} {s s' : List Nat × Engine (Bench P)}
    (h : LiveRun p prompt e₀ s.1 s.2) (h_ops : ops.foldlM (Op.live? p prompt) s = some s') :
    LiveRun p prompt e₀ s'.1 s'.2 := by
  -- induction on the operations, each of them a step of the run
  induction ops generalizing s with
  | nil =>
    cases h_ops
    exact h
  | cons op ops ih =>
    obtain ⟨t, h_first, h_rest⟩ := Option.bind_eq_some_iff.1 h_ops
    refine ih ?_ h_rest
    cases op with
    | advance ticks =>
      rw [Op.live?] at h_first
      split at h_first
      · -- a prompt run must not let time pass over an event that is pending
        cases h_first
      rename_i h_served
      obtain ⟨⟨event, e'⟩, h_result, rfl⟩ := Option.map_eq_some_iff.1 h_first
      refine h.advance (fun h_prompt => ?_) (Action.run_eq_ok_of_result? h_result)
      rwa [h_prompt, Bool.true_and, Bool.not_eq_true] at h_served
    | interrupt =>
      obtain ⟨⟨⟨⟩, e'⟩, h_result, rfl⟩ := Option.map_eq_some_iff.1 h_first
      exact h.interrupt (Action.run_eq_ok_of_result? h_result)
    | start pins? =>
      obtain ⟨⟨r, e'⟩, h_result, rfl⟩ := Option.map_eq_some_iff.1 h_first
      exact h.start (Action.run_eq_ok_of_result? h_result)
    | command k =>
      obtain ⟨⟨⟨⟩, e'⟩, h_result, rfl⟩ := Option.map_eq_some_iff.1 h_first
      exact h.command (.inl ⟨⟨⟩, Action.run_eq_ok_of_result? h_result⟩)

/-- The live run that starts a new engine on pin 2 and goes on with some operations. -/
def liveRun? (prompt : Bool) (config : Config) (lag : Nat) (ops : List Op) :
    Option (List Nat × Engine (Bench PinRecorder)) := do
  let (answer, e) ← (Engine.start (some [2])).result? .debug (freshRecorded config lag 0)
  if answer = .ok () then ops.foldlM (Op.live? .debug prompt) ([], e) else none

theorem liveRun_of_liveRun? {prompt : Bool} {config : Config} {lag : Nat} {ops : List Op}
    {s : List Nat × Engine (Bench PinRecorder)} (h : liveRun? prompt config lag ops = some s) :
    LiveRun .debug prompt (freshRecorded config lag 0) s.1 s.2 := by
  obtain ⟨⟨answer, e⟩, h_start, h⟩ := Option.bind_eq_some_iff.1 h
  dsimp only at h
  split at h
  · rename_i h_answer
    subst h_answer
    exact liveRun_of_live? (.first rfl (Action.run_eq_ok_of_result? h_start)) h
  · cases h

/-- An overflow is lost, the next one is served late, and arming takes 40 ticks. -/
def lostOverflow : Option (List Nat × Engine (Bench PinRecorder)) :=
  liveRun? false { wrapsPerPeriod := 2 } 40
    [.command (.targetTicks 0 36000), .advance 65536, .advance 65536, .advance 100, .interrupt,
      .advance 40000, .interrupt, .advance 65536, .interrupt, .advance 65536, .interrupt]

theorem isSome_lostOverflow : lostOverflow.isSome = true := by decide +kernel

/-- Every flag is served at once. -/
def servedPromptly : Option (List Nat × Engine (Bench PinRecorder)) :=
  liveRun? true { wrapsPerPeriod := 1 } 0
    [.command (.targetTicks 0 36000), .advance 65536, .interrupt, .advance 65536, .interrupt,
      .advance 65536, .interrupt]

theorem isSome_servedPromptly : servedPromptly.isSome = true := by decide +kernel

theorem period_spacing_lostOverflow :
    (∃ e, LiveRun .debug false (freshRecorded { wrapsPerPeriod := 2 } 40 0) [131072, 262144] e ∧
      Spaced (· ≤ ·) 2 0 [131072, 262144]) ∧
    ∃ e, LiveRun .debug true (freshRecorded { wrapsPerPeriod := 1 } 0 0) [65536, 131072] e ∧
      Spaced (· = ·) 1 0 [65536, 131072] := by
  have h_lost := liveRun_of_liveRun? (Option.some_get isSome_lostOverflow).symm
  have h_overflows : (lostOverflow.get isSome_lostOverflow).1 = [131072, 262144] := by
    decide +kernel
  rw [h_overflows] at h_lost
  have h_prompt := liveRun_of_liveRun? (Option.some_get isSome_servedPromptly).symm
  have h_served : (servedPromptly.get isSome_servedPromptly).1 = [65536, 131072] := by
    decide +kernel
  rw [h_served] at h_prompt
  exact ⟨⟨_, h_lost, (period_spacing h_lost).2.1⟩,
    ⟨_, h_prompt, (period_spacing h_prompt).2.2 rfl rfl⟩⟩

end Engine

end ServoPulse
