import Mathlib.Data.Nat.Find
import ServoPulse.Proofs.CleanRuns

/-!
# The looks of a stop

While a stop waits, the periods go on. The stop looks for a pulse in flight right away and after
every wait (`Config.lookAfter`), and gives up when it finds one at each of its looks
(`returns_stop`). So it depends on how the looks fall into the periods whether it gives up: it
cannot if some look falls behind the longest pulse, wherever in that pulse the stop begins
(`Config.FindsGap`, `Waiting.not_inFlight`). A poll interval that fits into the gap between the
longest pulse and the end of the period is enough (`Config.findsGap_of_le`).
-/

namespace ServoPulse

namespace Config

variable {c : Config} {i n : Nat}

/-- The number of waits after which a stop gives up. -/
def maxPolls (c : Config) : Nat :=
  (c.stopTimeoutUs.toNat + c.stopPollUs.toNat - 1) / c.stopPollUs.toNat

/-- The ticks that pass until a stop has waited `i` times and looks again. -/
def lookAfter (c : Config) (i : Nat) : Nat := ticksPerMicrosecond * (i * c.stopPollUs.toNat)

/-- Wherever in the longest pulse a stop begins, it looks once while no pulse is in flight. -/
def FindsGap (c : Config) : Prop :=
  ∀ x < maxTargetTicks, ∃ i ≤ c.maxPolls, maxTargetTicks ≤ (x + c.lookAfter i) % c.periodTicks

theorem maxPolls_le_iff (h_poll : 0 < c.stopPollUs.toNat) :
    c.maxPolls ≤ n ↔ c.stopTimeoutUs.toNat ≤ n * c.stopPollUs.toNat := by
  rw [maxPolls, Nat.div_le_iff_le_mul_add_pred h_poll, Nat.mul_comm n]
  omega

@[simp] theorem lookAfter_zero : c.lookAfter 0 = 0 := by
  rw [lookAfter, Nat.zero_mul, Nat.mul_zero]

theorem lookAfter_succ : c.lookAfter (i + 1) =
    c.lookAfter i + ticksPerMicrosecond * c.stopPollUs.toNat := by
  rw [lookAfter, lookAfter, Nat.add_one_mul i, Nat.mul_add]

theorem lookAfter_le (h : i ≤ n) : c.lookAfter i ≤ c.lookAfter n :=
  Nat.mul_le_mul_left _ (Nat.mul_le_mul_right _ h)

/-- The timeout and the poll interval have 32 bits each. -/
theorem lookAfter_maxPolls_lt (c : Config) :
    c.lookAfter c.maxPolls < ticksPerMicrosecond * (2 * Width.bits32.size) := by
  have h_div := Nat.div_mul_le_self (c.stopTimeoutUs.toNat + c.stopPollUs.toNat - 1)
    c.stopPollUs.toNat
  have h_timeout := c.stopTimeoutUs.toNat_lt
  have h_poll := c.stopPollUs.toNat_lt
  rw [lookAfter, maxPolls]
  simp only [ticksPerMicrosecond, Width.size]
  omega

/-- The looks of a stop reach past the longest pulse. -/
theorem maxTargetTicks_le_lookAfter (h_valid : c.validate = .ok ()) :
    maxTargetTicks ≤ c.lookAfter c.maxPolls := by
  obtain ⟨-, h_timeout, h_poll⟩ := c.validate_eq_ok_iff.1 h_valid
  have h_all := (maxPolls_le_iff h_poll).1 (Nat.le_refl c.maxPolls)
  simp only [lookAfter, maxTargetTicks, maxTargetMicroseconds, ticksPerMicrosecond] at *
  omega

/-- No gap is missed where the poll interval fits into it. -/
theorem findsGap_of_le (h_valid : c.validate = .ok ())
    (h_fits : ticksPerMicrosecond * c.stopPollUs.toNat + maxTargetTicks ≤ c.periodTicks) :
    c.FindsGap := by
  intro x hx
  -- the timeout covers the longest pulse, so some look is past it
  have h_past : ∃ i, maxTargetTicks ≤ x + c.lookAfter i :=
    ⟨c.maxPolls, Nat.le_add_left_of_le (maxTargetTicks_le_lookAfter h_valid)⟩
  -- the first look past the longest pulse comes before the next period
  refine ⟨Nat.find h_past, Nat.find_min' h_past ?_, ?_⟩
  · exact Nat.le_add_left_of_le (maxTargetTicks_le_lookAfter h_valid)
  have h_first := Nat.find_spec h_past
  have h_before : x + c.lookAfter (Nat.find h_past) < c.periodTicks := by
    cases h_i : Nat.find h_past with
    | zero =>
      rw [lookAfter_zero]
      omega
    | succ i =>
      have h_last := Nat.find_min h_past (Nat.lt_of_lt_of_eq (Nat.lt_succ_self i) h_i.symm)
      rw [lookAfter_succ]
      omega
  rwa [Nat.mod_eq_of_lt h_before]

end Config

/-! ### Places in a period -/

/-- At the time `t` the longest pulse of some period would be in flight. -/
def WithinPulse (wraps origin t : Nat) : Prop :=
  ∃ k, periodStart wraps origin k ≤ t ∧ t < periodStart wraps origin k + maxTargetTicks

/-- The longest pulse is in flight at the beginning of each period. -/
theorem withinPulse_iff {wraps origin t : Nat} (h_pos : 0 < wraps) :
    WithinPulse wraps origin t ↔ periodStart wraps origin 0 ≤ t ∧
      (t - periodStart wraps origin 0) % (wraps * ticksPerWrap) < maxTargetTicks := by
  have h_start (k : Nat) :
      periodStart wraps origin k = periodStart wraps origin 0 + wraps * ticksPerWrap * k := by
    have h_turns : ticksPerWrap * (k * wraps) = wraps * ticksPerWrap * k := by
      rw [Nat.mul_comm k, ← Nat.mul_assoc, Nat.mul_comm ticksPerWrap]
    rw [periodStart, periodStart, Nat.zero_mul, Nat.mul_add, h_turns]
    omega
  have h_period : ticksPerWrap ≤ wraps * ticksPerWrap := Nat.le_mul_of_pos_left _ h_pos
  generalize wraps * ticksPerWrap = period at *
  constructor
  · -- the time since the first period started, taken off whole periods
    rintro ⟨k, h_le, h_lt⟩
    rw [h_start k] at h_le h_lt
    refine ⟨by omega, ?_⟩
    have h_into : t - periodStart wraps origin 0 =
        period * k + (t - (periodStart wraps origin 0 + period * k)) := by omega
    rw [h_into, Nat.mul_add_mod, Nat.mod_eq_of_lt]
    · omega
    · simp only [ticksPerWrap, maxTargetTicks] at *
      omega
  · -- the period that the time falls into
    rintro ⟨h_le, h_lt⟩
    have h_div := Nat.div_add_mod (t - periodStart wraps origin 0) period
    refine ⟨(t - periodStart wraps origin 0) / period, ?_, ?_⟩
    · rw [h_start]
      omega
    · rw [h_start]
      omega

namespace Engine

/-! ### Looking -/

section Looks

variable {β : Type} [Board β] {p : Profile} {wait : Nat → Action (Engine β) Unit}
  {poll timeout : Nat} {I : Nat → Engine β → Prop}

/-- A stop looks until it finds no pulse in flight or the timeout is over, where `I i` holds at its
look after `i` waits. -/
theorem returns_awaitFalls (h_poll : 0 < poll) (h_timeout : timeout ≤ Width.bits32.last)
    (h_wait : ∀ i s, I i s → s.pulseInFlight = true → i * poll < timeout →
      (wait i).Returns p s fun _ s' => I (i + 1) s')
    (h_down : ∀ i s, I i s → shutDown.Returns p s fun _ _ => True) {fuel i : Nat} {e : Engine β}
    (h_fuel : timeout < fuel + i) (h_i : i ≤ timeout) (h : I i e) :
    (awaitFalls wait poll timeout fuel i (min (i * poll) Width.bits32.last)).Returns p e
      fun report e' => ∃ e₁, I report.polls e₁ ∧ shutDown.run p e₁ = .ok () e' ∧
        report.forced = e₁.pulseInFlight ∧
          (report.forced = true → timeout ≤ report.polls * poll) := by
  induction fuel generalizing i e with
  | zero => omega
  | succ fuel ih =>
    refine .get_bind (.ite (fun h_go => ?_) fun h_end => ?_)
    · -- one wait more, after which the time waited stands at the sum, or at the largest count
      have h_soon : i * poll < timeout := by omega
      have h_le := Nat.le_mul_of_pos_right i h_poll
      have h_next : addWait (min (i * poll) Width.bits32.last) poll =
          min ((i + 1) * poll) Width.bits32.last := by
        rw [addWait, Nat.add_one_mul]
        omega
      refine .bind (h_wait i e h h_go.1 h_soon) fun _ t _ h_t => ?_
      rw [h_next]
      exact ih (by omega) (by omega) h_t
    · -- the wait is over, by a look that finds no pulse or by the timeout
      refine .bind (h_down i e h) fun _ t h_run _ => .pure ⟨e, h, h_run, rfl, fun h_forced => ?_⟩
      have h_late : ¬min (i * poll) Width.bits32.last < timeout := fun h_lt =>
        h_end ⟨h_forced, h_lt⟩
      change timeout ≤ i * poll
      omega

/-- A stop of a running engine that can run with its configuration. -/
theorem returns_stop {e : Engine β} (h_on : e.started = true) (h_valid : e.config.validate = .ok ())
    (h_wait : ∀ i s, I i s → s.pulseInFlight = true → i < e.config.maxPolls →
      (wait i).Returns p s fun _ s' => I (i + 1) s')
    (h_down : ∀ i s, I i s → shutDown.Returns p s fun _ _ => True) (h : I 0 e) :
    (stop wait).Returns p e fun report e' => ∃ e₁, I report.polls e₁ ∧
      shutDown.run p e₁ = .ok () e' ∧ report.forced = e₁.pulseInFlight ∧
        (report.forced = true → e.config.maxPolls ≤ report.polls) := by
  obtain ⟨-, -, h_poll⟩ := e.config.validate_eq_ok_iff.1 h_valid
  have h_timeout : e.config.stopTimeoutUs.toNat ≤ Width.bits32.last :=
    Nat.le_of_lt_succ e.config.stopTimeoutUs.toNat_lt
  refine .get_bind (.ite (fun _ => ?_) fun h_off => absurd h_on h_off)
  have h_looks := returns_awaitFalls h_poll h_timeout
    (fun i s h_s h_flight h_soon => h_wait i s h_s h_flight ?_) h_down
    (Nat.lt_succ_self e.config.stopTimeoutUs.toNat) (Nat.zero_le _) h
  · rw [Nat.zero_mul, Nat.zero_min] at h_looks
    refine h_looks.mono fun report e' _ ⟨e₁, h_e₁, h_run, h_forced, h_late⟩ => ?_
    exact ⟨e₁, h_e₁, h_run, h_forced, fun h_cut => (Config.maxPolls_le_iff h_poll).2 (h_late h_cut)⟩
  · -- before the timeout there are looks left
    refine Nat.lt_of_not_le fun h_le => Nat.not_le_of_lt h_soon ?_
    exact (Config.maxPolls_le_iff h_poll).1 h_le

end Looks

variable {P : Type} [PinBank P] [LawfulPinBank P] {wraps origin n : Nat}
  {late : Nat → Nat → Nat} {inForce : Nat → ChannelTable}
  {older older₁ : List (Engine (Bench (Scope P)))} {e e₁ : Engine (Bench (Scope P))}

/-! ### Pulses in flight -/

omit [PinBank P] [LawfulPinBank P] in
theorem pulseInFlight_iff : e.pulseInFlight = true ↔ ∃ f, f ∈ e.queue.events := by
  rw [pulseInFlight, FallQueue.isEmpty, Bool.not_eq_true', List.isEmpty_eq_false_iff_exists_mem]

/-- A pulse is in flight exactly between the start of a period and a fall of it. -/
theorem OnTime.inFlight_iff (h : OnTime wraps origin n late inForce e) :
    e.pulseInFlight = true ↔ ∃ k, ∃ f ∈ (inForce (periodStart wraps origin k)).step.falls,
      periodStart wraps origin k ≤ e.clock.now ∧
        e.clock.now < periodStart wraps origin k + f.due := by
  rw [pulseInFlight_iff]
  constructor
  · rintro ⟨f, hf⟩
    obtain ⟨k, h_f⟩ := (h.timely.pending_iff f).1 hf
    exact ⟨k, f, h_f⟩
  · rintro ⟨k, f, h_f⟩
    exact ⟨f, (h.timely.pending_iff f).2 ⟨k, h_f⟩⟩

theorem OnTime.withinPulse (h : OnTime wraps origin n late inForce e)
    (h_flight : e.pulseInFlight = true) : WithinPulse wraps origin e.clock.now := by
  obtain ⟨k, f, hf, h_le, h_lt⟩ := h.inFlight_iff.1 h_flight
  have h_short := h.timely.short _ f hf
  exact ⟨k, h_le, by omega⟩

/-! ### Waiting by serving -/

variable [RoomyPinBank P]

/-- In a stop of `e` that serves every event while it waits, after `i` waits. -/
structure Waiting (older : List (Engine (Bench (Scope P)))) (e : Engine (Bench (Scope P))) (i : Nat)
    (older₁ : List (Engine (Bench (Scope P)))) (e₁ : Engine (Bench (Scope P))) : Prop where
  goesOn : GoesOn older e older₁ e₁
  handy : Handy e₁
  now_eq : e₁.clock.now = e.clock.now + e.config.lookAfter i
  polls_le : i ≤ e.config.maxPolls
  /-- Each look so far has found a pulse. -/
  pulsing : ∀ j < i, WithinPulse e.config.wrapsPerPeriod.toNat e.clock.origin
    (e.clock.now + e.config.lookAfter j)

/-- One more wait, which starts as a pulse is in flight, returns and is one of these waits. -/
theorem Waiting.returns_delayUs {i : Nat} (h : Waiting older e i older₁ e₁)
    (h_time : OnTime e.config.wrapsPerPeriod.toNat e.clock.origin n late
      (tableInForce (e :: older)) e)
    (h_flight : e₁.pulseInFlight = true) (h_i : i < e.config.maxPolls)
    (h_fits : e.clock.now + e.config.lookAfter (i + 1) + ticksPerWrap < Width.bits64.size) :
    (delayUs .serving e.config.stopPollUs.toNat).Returns .debug e₁ fun _ e₂ =>
      ∃ older₂, Waiting older e (i + 1) older₂ e₂ := by
  have h_next : e₁.clock.now + ticksPerMicrosecond * e.config.stopPollUs.toNat =
      e.clock.now + e.config.lookAfter (i + 1) := by
    rw [h.now_eq, Config.lookAfter_succ, Nat.add_assoc]
  refine (h.handy.returns_delayUs (h_next ▸ h_fits)).mono fun _ e₂ h_run ⟨h_handy, h_now⟩ => ?_
  obtain ⟨older₂, h_on⟩ := servedOn_delayUs _ h_run older₁
  refine ⟨older₂, h.goesOn.trans h_on, h_handy, h_now.trans h_next, h_i, fun j hj => ?_⟩
  rcases Nat.lt_succ_iff_lt_or_eq.1 hj with hj | rfl
  · exact h.pulsing j hj
  · -- the look before this wait is the one that has just found a pulse
    obtain ⟨late₁, h_time₁⟩ := h_time.goesOn h.goesOn
    rw [← h.now_eq]
    exact h_time₁.withinPulse h_flight

/-- **Waiting.** The stop returns, after a look that finds no pulse or that is the last one. It
makes no more than `last` waits if all its looks after that many find no pulse. -/
theorem returns_stopWith_of_last {last : Nat} (h_handy : Handy e)
    (h_time : OnTime e.config.wrapsPerPeriod.toNat e.clock.origin n late
      (tableInForce (e :: older)) e)
    (h_last : ∀ {i : Nat} {older₁ : List (Engine (Bench (Scope P)))}
      {e₁ : Engine (Bench (Scope P))},
      Waiting older e i older₁ e₁ → e₁.pulseInFlight = true → i < e.config.maxPolls → i ≤ last →
        i < last)
    (h_fits : e.clock.now + e.config.lookAfter last + ticksPerWrap < Width.bits64.size) :
    (stopWith .serving).Returns .debug e fun report e' => ∃ older₁ e₁,
      (Waiting older e report.polls older₁ e₁ ∧ report.polls ≤ last) ∧
        shutDown.run .debug e₁ = .ok () e' ∧ report.forced = e₁.pulseInFlight ∧
          (report.forced = true → e.config.maxPolls ≤ report.polls) := by
  have h_on := h_time.steady.started
  have h_valid := h_handy.orderly.tied.prepared.valid h_on
  have h_room {i : Nat} (h_i : i ≤ last) :
      e.clock.now + e.config.lookAfter i + ticksPerWrap < Width.bits64.size := by
    have h_le := e.config.lookAfter_le h_i
    omega
  -- before the first wait the engine stands as it is
  have h_first : ∃ older₁, Waiting older e 0 older₁ e ∧ 0 ≤ last :=
    ⟨older, ⟨.refl, h_handy, by rw [Config.lookAfter_zero, Nat.add_zero], Nat.zero_le _, nofun⟩,
      Nat.zero_le _⟩
  refine .get_bind ((returns_stop (I := fun i s => ∃ older₁, Waiting older e i older₁ s ∧ i ≤ last)
    h_on h_valid (fun i s h_s h_flight h_i => ?_) (fun i s h_s => ?_) h_first).mono
      fun report e' _ ⟨e₁, ⟨older₁, h⟩, h_rest⟩ => ⟨older₁, e₁, h, h_rest⟩)
  · -- a look that finds a pulse is not the last one, so there is time for one more wait
    obtain ⟨older₁, h, h_le⟩ := h_s
    have h_lt := h_last h h_flight h_i h_le
    exact (h.returns_delayUs h_time h_flight h_i (h_room h_lt)).mono
      fun _ s' _ ⟨older₂, h'⟩ => ⟨older₂, h', h_lt⟩
  · -- the shutdown arms nothing, and its changes of the pins find room
    obtain ⟨older₁, h, h_le⟩ := h_s
    have h_spare : Spare (maxServos + 0) maxServos s :=
      (h.handy.spare (h.now_eq ▸ h_room h_le)).mono (by decide) (Nat.le_refl _)
    exact h_spare.shutDown.mono fun _ _ _ _ => trivial

/-- The timeout ends the wait in any case. -/
theorem returns_stopWith (h_handy : Handy e)
    (h_time : OnTime e.config.wrapsPerPeriod.toNat e.clock.origin n late
      (tableInForce (e :: older)) e)
    (h_fits : e.clock.now + e.config.lookAfter e.config.maxPolls + ticksPerWrap <
      Width.bits64.size) :
    (stopWith .serving).Returns .debug e fun report e' => ∃ older₁ e₁,
      Waiting older e report.polls older₁ e₁ ∧ shutDown.run .debug e₁ = .ok () e' ∧
        report.forced = e₁.pulseInFlight ∧
          (report.forced = true → e.config.maxPolls ≤ report.polls) :=
  (returns_stopWith_of_last h_handy h_time (fun _ _ h_i _ => h_i) h_fits).mono
    fun _ _ _ ⟨older₁, e₁, ⟨h, _⟩, h_rest⟩ => ⟨older₁, e₁, h, h_rest⟩

/-- With a configuration that finds the gap, a stop does not give up. -/
theorem Waiting.not_inFlight {i : Nat} (h : Waiting older e i older₁ e₁)
    (h_gap : e.config.FindsGap) (h_last : e.config.maxPolls ≤ i)
    (h_time : OnTime e.config.wrapsPerPeriod.toNat e.clock.origin n late
      (tableInForce (e :: older)) e) :
    e₁.pulseInFlight = false := by
  by_contra h_flight
  have h_pos := h_time.steady.wraps_pos
  obtain ⟨late', h_time'⟩ := h_time.goesOn h.goesOn
  have h_all : ∀ j ≤ e.config.maxPolls, WithinPulse e.config.wrapsPerPeriod.toNat e.clock.origin
      (e.clock.now + e.config.lookAfter j) := by
    intro j hj
    rcases Nat.lt_or_eq_of_le (Nat.le_trans hj h_last) with hj | rfl
    · exact h.pulsing j hj
    · rw [← h.now_eq]
      exact h_time'.withinPulse (Bool.ne_false_iff.1 h_flight)
  -- the first look falls into the longest pulse, and so all of them would
  obtain ⟨h_begun, h_place⟩ := (withinPulse_iff h_pos).1 (h_all 0 (Nat.zero_le _))
  rw [Config.lookAfter_zero, Nat.add_zero] at h_begun h_place
  obtain ⟨j, hj, h_out⟩ := h_gap _ h_place
  obtain ⟨-, h_in⟩ := (withinPulse_iff h_pos).1 (h_all j hj)
  rw [Nat.sub_add_comm h_begun, ← Nat.mod_add_mod] at h_in
  exact Nat.not_lt_of_le h_out h_in

end Engine

end ServoPulse
