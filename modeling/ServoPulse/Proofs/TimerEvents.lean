import ServoPulse.Proofs.OnTime

/-!
# Timer events on time

An engine on time stays on time when the next event of the timer comes and is served at once:
a compare match carries out the falls that have come due (`OnTime.compare_event`), and the end
of a turn begins a period exactly when one is due (`OnTime.overflow_event`).

Both events end by settling the queue. The engine that does so is `Poised`: it is on time but for
the falls that are due right now. Settling may take time, and then falls that come due meanwhile are
carried out as well, some of them late (`Poised.settle`).
-/

namespace ServoPulse

namespace Engine

variable {P : Type} [PinBank P] [LawfulPinBank P] {wraps origin n : Nat}
  {late : Nat → Nat → Nat} {inForce inForce' : Nat → ChannelTable}
  {e e' t : Engine (Bench (Scope P))}

/-! ### Settling -/

/-- An engine on time that has yet to settle what is due now. -/
structure Poised (wraps origin n : Nat) (late : Nat → Nat → Nat) (inForce : Nat → ChannelTable)
    (e : Engine (Bench (Scope P))) : Prop where
  tied : Tied e
  started : e.started = true
  wraps_eq : e.config.wrapsPerPeriod.toNat = wraps
  wraps_pos : 0 < wraps
  lag_le : e.board.lag ≤ maxLag
  running : e.clock.running = true
  origin_eq : e.clock.origin = origin
  origin_lt : origin < e.clock.now
  overflow_flag : e.clock.overflowPending = false
  wrap_eq : e.wrap = (e.clock.turns + (wraps - 1)) % wraps
  timely : Timely wraps origin n late inForce e.clock.now (e.clock.now - 1) e

namespace Poised

/-- A steady engine whose next event has come. -/
theorem of_steady {s : Nat} (h : Steady wraps origin e) (h_tied : Tied t)
    (h_clock : t.clock = (e.later s).clock) (h_lag : t.board.lag = e.board.lag)
    (h_setup : t.config = e.config ∧ t.started = e.started) (h_s : e.clock.now < s)
    (h_wrap : t.wrap = ((s - origin) / ticksPerWrap + (wraps - 1)) % wraps)
    (h_timely : Timely wraps origin n late inForce s (s - 1) t) :
    Poised wraps origin n late inForce t := by
  have h_now : t.clock.now = s := congrArg Clock.now h_clock
  have h_origin : t.clock.origin = origin := (congrArg Clock.origin h_clock).trans h.origin_eq
  refine
    { tied := h_tied
      started := h_setup.2.trans h.started
      wraps_eq := h_setup.1 ▸ h.wraps_eq
      wraps_pos := h.wraps_pos
      lag_le := h_lag ▸ h.lag_le
      running := (congrArg Clock.running h_clock).trans h.running
      origin_eq := h_origin
      origin_lt := ?_
      overflow_flag := congrArg Clock.overflowPending h_clock
      wrap_eq := ?_
      timely := h_now.symm ▸ h_timely }
  · rw [h_now]
    exact Nat.lt_of_le_of_lt h.origin_le h_s
  · rw [Clock.turns, h_now, h_origin]
    exact h_wrap

/-- A fall that is due now or later, of a period that has started, is one of the present period,
which is in its first turn. -/
theorem period {k : Nat} {f : Fall} (h : Poised wraps origin n late inForce e)
    (hf : f ∈ (inForce (periodStart wraps origin k)).step.falls)
    (h_le : periodStart wraps origin k ≤ e.clock.now)
    (h_lt : e.clock.now - 1 < periodStart wraps origin k + f.due) :
    e.wrap = 0 ∧ periodStart wraps origin k + e.seen = e.clock.now := by
  have h_short := Fall.due_lt_ticksPerWrap (h.timely.short _ f hf)
  -- the period has begun less than a turn ago, so the turn that is on is its first
  have h_within : e.clock.now < periodStart wraps origin k + ticksPerWrap := by omega
  obtain ⟨h_turns, h_count⟩ := turn_of_periodStart h_le h_within
  rw [← h.origin_eq] at h_turns h_count
  have h_wrap : e.wrap = 0 := h.wrap_eq.trans (OnTime.wrap_eq_zero h.wraps_pos h_turns)
  refine ⟨h_wrap, ?_⟩
  rw [seen_of_running h.running, h_wrap, Nat.zero_mul, Nat.zero_add, Clock.count, h_count,
    h.origin_eq]
  exact Nat.add_sub_of_le h_le

theorem settleable (h : Poised wraps origin n late inForce e) : Settleable e where
  tied := h.tied
  lag_le := h.lag_le
  running := h.running
  origin_le := h.origin_eq.symm ▸ Nat.le_of_lt h.origin_lt
  sorted := h.timely.sorted
  -- a pending fall is one of a period that has begun, and so it comes within the first turn
  short f hf := by
    obtain ⟨k, h_f, -⟩ := (h.timely.pending_iff f).1 hf
    exact h.timely.short _ f h_f
  wrap_eq f hf := by
    obtain ⟨k, h_f, h_le, h_lt⟩ := (h.timely.pending_iff f).1 hf
    rw [(h.period h_f h_le h_lt).1, Fall.wrap_eq_zero (h.timely.short _ f h_f)]
  overdue_le f hf := by
    -- no fall was due before now
    obtain ⟨k, h_f, h_le, h_lt⟩ := (h.timely.pending_iff f).1 hf
    have h_now := (h.period h_f h_le h_lt).2
    omega

/-- **Settling.** It ends with the engine on time. -/
theorem settle (h : Poised wraps origin n late inForce e)
    (h_run : fallDue.run .debug e = .ok () e') (h_orderly : Orderly e') (h_bounded : Bounded e')
    (h_renewed : Renewed inForce inForce' e') :
    ∃ late', OnTime wraps origin n late' inForce' e' := by
  -- the falls that are due are lowered, and the channel is armed for the next one
  obtain ⟨h_out, h_ahead, h_compare⟩ := carriedOut_of_run_fallDue h.settleable h_run
  have h_origin_le : origin ≤ e.clock.now := Nat.le_of_lt h.origin_lt
  have h_origin : e'.clock.origin = origin := by
    rw [h_out.clock_eq]
    exact h.origin_eq
  have h_turns := h_out.turns_eq
  -- the timer still runs, from the same origin and with no overflow pending
  have h_steady : Steady wraps origin e' := by
    refine ⟨h_orderly, h_bounded, h_out.setup_eq.2.trans h.started, ?_, h_out.lag_eq ▸ h.lag_le, ?_,
      h_origin, ?_⟩
    · rw [h_out.setup_eq.1]
      exact h.wraps_eq
    · rw [h_out.clock_eq]
      exact h.running
    · rw [h_out.clock_eq]
      exact h.overflow_flag
  have h_past : 0 < e.clock.now := Nat.lt_of_le_of_lt (Nat.zero_le _) h.origin_lt
  -- settling ends in the turn in which it began, and so in the same period
  obtain ⟨late', h_timely⟩ := h.timely.settle h.settleable h_out h_ahead rfl
    (Nat.sub_lt h_past Nat.one_pos) (fun k f hf h_le h_lt => (h.period hf h_le h_lt).2)
    fun k h_start => by
      rw [periodStart_le_iff (Nat.le_trans h_origin_le h_out.now_le)] at h_start
      refine (periodStart_le_iff h_origin_le).2 ?_
      rw [Clock.turns, Clock.turns, h_origin, h.origin_eq] at h_turns
      exact h_turns ▸ h_start
  -- the wrap count follows from the turn, which settling leaves as it is
  refine ⟨late', h_steady, ?_, h_compare, h_renewed.new,
    h_timely.renew h_renewed.old (h_renewed.short h_bounded h.timely.short)⟩
  rw [h_out.wrap_eq, h_turns]
  exact h.wrap_eq

end Poised

namespace OnTime

/-! ### A compare match -/

/-- **A compare match.** Served at once, it carries out the falls that are due by then. -/
theorem compare_event {f : Fall} {rest : List Fall} {limit : Nat}
    (h : OnTime wraps origin n late inForce e) (h_queue : e.queue.events = f :: rest)
    (h_limit : e.clock.eventAt ≤ limit) (h_orderly : Orderly e') (h_bounded : Bounded e')
    (h_run : interrupt.run .debug (e.withClock (e.clock.reach limit).2) = .ok () e')
    (h_renewed : Renewed inForce inForce' e') :
    ∃ late', OnTime wraps origin n late' inForce' e' := by
  -- the next fall is ahead, so the event is its compare match and not the overflow
  have h_steady := h.steady
  obtain ⟨k, -, -, h_compare, h_ahead, h_at, h_event, h_overflow⟩ := h.next_of_pending h_queue
  have h_next : e.clock.now < e.clock.eventAt := e.clock.lt_eventAt
  rw [Clock.reach_of_ahead h_steady.running h_compare h_ahead (by omega)] at h_run
  have h_fall : fallDue.run .debug (e.later e.clock.eventAt) = .ok () e' := by
    rw [h_event, ← h_at]
    exact run_interrupt_of_match h_run h_steady.not_halted h_steady.overflow_flag rfl
  -- until the match nothing happens
  have h_timely : Timely wraps origin n late inForce e.clock.eventAt (e.clock.eventAt - 1)
      (e.later e.clock.eventAt) := by
    refine h.timely.wait rfl rfl rfl (Nat.le_of_lt h_next) (Nat.le_sub_one_of_lt h_next)
      (Nat.sub_le _ _) (fun l => h.start_le_of_turn (Nat.le_of_lt h_next) h_overflow)
      fun l g hg h_le h_lt => ?_
    have h_due := h.event_le hg h_le h_lt
    omega
  have h_poised : Poised wraps origin n late inForce (e.later e.clock.eventAt) := by
    refine .of_steady h_steady (h_steady.tied_later _) rfl rfl ⟨rfl, rfl⟩ h_next ?_ h_timely
    -- the match is in the present turn
    have h_turns := (Clock.count_of_lt_overflowAt (d := (e.later e.clock.eventAt).clock)
      h_steady.bounded.origin_le rfl (Nat.le_of_lt h_next) h_overflow).1
    rw [← h_steady.origin_eq]
    exact h.wrap_eq.trans (h_turns ▸ rfl)
  exact h_poised.settle h_fall h_orderly h_bounded h_renewed

/-! ### The end of a turn -/

/-- The jump to the end of a turn raises the overflow flag. -/
theorem reach_of_empty {limit : Nat} (h : OnTime wraps origin n late inForce e)
    (h_queue : e.queue.events = []) (h_limit : e.clock.eventAt ≤ limit) :
    e.clock.reach limit =
      (true, { e.clock with now := e.clock.overflowAt, overflowPending := true }) :=
  Clock.reach_of_no_match h.steady.running (h.next_of_empty h_queue).1 h_limit

/-- The turn that ends is the last one counted, and one more. -/
theorem overflow_turns (h : OnTime wraps origin n late inForce e) :
    e.clock.overflowAt = origin + ticksPerWrap * (e.clock.turns + 1) ∧
      (e.clock.overflowAt - origin) / ticksPerWrap = e.clock.turns + 1 := by
  have h_at : e.clock.overflowAt = origin + ticksPerWrap * (e.clock.turns + 1) := by
    rw [Clock.overflowAt_eq h.steady.bounded.origin_le, h.steady.origin_eq]
  refine ⟨h_at, ?_⟩
  rw [h_at, Nat.add_sub_cancel_left, Nat.mul_div_cancel_left _ (by decide)]

/-- A period that has started by the end of the turn starts right there, or has started before. -/
theorem start_or_before {k : Nat} (h : OnTime wraps origin n late inForce e)
    (h_k : periodStart wraps origin k ≤ e.clock.overflowAt) :
    e.clock.turns + 1 = 1 + k * wraps ∨ periodStart wraps origin k ≤ e.clock.now := by
  -- a period that starts by the end of the turn starts at that end, or it has started already
  by_cases h_last : e.clock.turns + 1 = 1 + k * wraps
  · exact .inl h_last
  · refine .inr ?_
    rw [periodStart_le_iff h.steady.origin_le, ← h.steady.turns_eq]
    rw [h.overflow_turns.1, periodStart] at h_k
    simp only [ticksPerWrap] at h_k
    omega

/-- With no fall pending, no fall of a period that has started is still to come. -/
theorem not_due_of_empty {k : Nat} {f : Fall} (h : OnTime wraps origin n late inForce e)
    (h_queue : e.queue.events = []) (hf : f ∈ (inForce (periodStart wraps origin k)).step.falls)
    (h_le : periodStart wraps origin k ≤ e.clock.now) :
    ¬e.clock.now < periodStart wraps origin k + f.due := by
  intro h_lt
  have h_mem := (h.timely.pending_iff f).2 ⟨k, hf, h_le, h_lt⟩
  rw [h_queue] at h_mem
  exact List.not_mem_nil h_mem

/-- **A turn within a period.** Its end begins no period. -/
theorem overflow_within {m : Nat} (h : OnTime wraps origin n late inForce e)
    (h_queue : e.queue.events = []) (h_wrap : (e.clock.turns + 1 + (wraps - 1)) % wraps = m)
    (h_pos : 0 < m) :
    Poised wraps origin n late inForce { e.later e.clock.overflowAt with wrap := m } := by
  have h_next := e.clock.lt_overflowAt
  have h_tied : Tied { e.later e.clock.overflowAt with wrap := m } :=
    (h.steady.tied_later e.clock.overflowAt).of_time _ _ _
  refine .of_steady h.steady h_tied rfl rfl ⟨rfl, rfl⟩ h_next ?_ ?_
  · rw [h.overflow_turns.2]
    exact h_wrap.symm
  · -- no period begins here, and with an empty queue nothing is due
    refine h.timely.wait rfl rfl rfl (Nat.le_of_lt h_next) (Nat.le_sub_one_of_lt h_next)
      (Nat.sub_le _ _) (fun k h_k => (h.start_or_before h_k).resolve_left fun h_start => ?_)
      fun k f hf h_le h_lt => absurd h_lt (h.not_due_of_empty h_queue hf h_le)
    rw [wrap_eq_zero h.steady.wraps_pos h_start] at h_wrap
    omega

omit [PinBank P] [LawfulPinBank P] in
/-- The pins of the falls of a table are no others than its channels' pins. -/
theorem nodup_pins_of_step {table : ChannelTable} (h : (table.active.map Channel.pin).Nodup) :
    (table.step.falls.map Fall.pin).Nodup := by
  have h_sublist := table.step.map_pin_falls_sublist
  rw [table.map_pin_step] at h_sublist
  exact h_sublist.nodup h

/-- Beginning a period with every pin low raises the pins of its falls and no others. -/
theorem edges_beginPeriod {p : Profile} (h : Tied e) (h_queue : e.queue.events = [])
    (h_run : beginPeriod.run p e = .ok () e') :
    e'.edges = e.edges ++ e.table.step.falls.map fun f => .rise e.clock.now f.pin := by
  obtain ⟨low, high, h_low, h_high, rfl⟩ := run_beginPeriod_eq_ok h_run
  rw [h_queue] at h_low
  obtain rfl : low = e.pins := (Action.run_forM_nil_eq_ok_iff.1 h_low).symm
  have h_sublist := e.table.step.map_pin_falls_sublist
  rw [e.table.map_pin_step] at h_sublist
  -- with an empty queue every pin is low, so each of the rises is seen
  have h_all : (e.table.step.falls.map Fall.pin).filter
      (fun pin => PinBank.isHigh e.pins pin != true) = e.table.step.falls.map Fall.pin := by
    refine List.filter_eq_self.2 fun pin _ => ?_
    rw [h.low h_queue pin]
    rfl
  change high.edges = _
  rw [Scope.driveAll_edges (fun pin h_pin => h.prepared.output pin (h_sublist.subset h_pin))
    (nodup_pins_of_step h.channel_nodup) h_high, h_all, List.map_map]
  rfl

/-- **The start of a period.** It raises the pin of every channel that pulses, and puts all
their falls on the queue. -/
theorem overflow_begins {k : Nat} (h : OnTime wraps origin n late inForce e)
    (h_queue : e.queue.events = []) (h_turns : e.clock.turns + 1 = 1 + k * wraps)
    (h_begin : beginPeriod.run .debug { e.later e.clock.overflowAt with wrap := 0 } = .ok () t) :
    Poised wraps origin n late inForce t := by
  -- the timer overflows with an empty queue, and then the period is begun
  have h_next := e.clock.lt_overflowAt
  have h_opening : Tied { e.later e.clock.overflowAt with wrap := 0 } :=
    (h.steady.tied_later e.clock.overflowAt).of_time _ _ _
  have h_rises : t.edges = e.edges ++ e.table.step.falls.map
      fun f => .rise e.clock.overflowAt f.pin := edges_beginPeriod h_opening h_queue h_begin
  obtain ⟨h_tied, h_perm⟩ := h_opening.beginPeriod h_begin
  have h_period := periodBegun_of_run h_begin
  rw [show t.table = e.table.step from h_period.table_eq] at h_perm
  have h_start : e.clock.overflowAt = periodStart wraps origin k := by
    rw [h.overflow_turns.1, h_turns, periodStart]
  have h_table : inForce (periodStart wraps origin k) = e.table :=
    h.in_force _ (h_start ▸ h_next)
  have h_sorted : t.queue.events.Pairwise (· ≤ ·) := by
    rw [h_period.queue_eq]
    exact FallQueue.pairwise_insertAll .nil
  -- nothing happens before the end of the turn, and then the period begins
  have h_before : Timely wraps origin n late inForce (e.clock.overflowAt - 1)
      (e.clock.overflowAt - 1) e :=
    h.timely.wait rfl rfl rfl (Nat.le_sub_one_of_lt h_next) (Nat.le_sub_one_of_lt h_next)
      (Nat.le_refl _)
      (fun l => h.start_le_of_turn (Nat.le_sub_one_of_lt h_next) (by omega))
      fun l f hf h_le h_lt => absurd h_lt (h.not_due_of_empty h_queue hf h_le)
  have h_timely : Timely wraps origin n late inForce (periodStart wraps origin k)
      (e.clock.overflowAt - 1) t := by
    refine h_before.begin h_queue (by omega) (fun l h_l => ?_) h_period.lag_eq h_sorted
      (fun f => ?_) ?_ ?_
    · rcases h.start_or_before (h_start.symm ▸ h_l) with h_same | h_old
      · exact .inl (periodStart_congr (h_same.symm.trans h_turns))
      · exact .inr (Nat.le_trans h_old (Nat.le_sub_one_of_lt h_next))
    · rw [h_table, h_perm.mem_iff]
    · rw [h_table]
      exact nodup_pins_of_step h.steady.orderly.tied.channel_nodup
    · rw [h_table, ← h_start]
      exact h_rises
  refine .of_steady h.steady h_tied h_period.clock_eq h_period.lag_eq h_period.setup_eq h_next ?_
    (h_start ▸ h_timely)
  rw [h_period.wrap_eq, h.overflow_turns.2, wrap_eq_zero h.steady.wraps_pos h_turns]

/-- **The end of a turn.** Served at once, it begins a period exactly when one is due. -/
theorem overflow_event {limit : Nat} (h : OnTime wraps origin n late inForce e)
    (h_queue : e.queue.events = []) (h_limit : e.clock.eventAt ≤ limit) (h_orderly : Orderly e')
    (h_bounded : Bounded e')
    (h_run : interrupt.run .debug (e.withClock (e.clock.reach limit).2) = .ok () e')
    (h_renewed : Renewed inForce inForce' e') :
    ∃ late', OnTime wraps origin n late' inForce' e' := by
  have h_steady := h.steady
  rw [h.reach_of_empty h_queue h_limit] at h_run
  obtain ⟨e₁, h_turn, h_fall⟩ :
      ∃ e₁, turn.run .debug (e.later e.clock.overflowAt) = .ok () e₁ ∧
        fallDue.run .debug e₁ = .ok () e' :=
    run_interrupt_of_overflow h_run h_steady.not_halted rfl
  -- the turns counted and those that have passed agree up to whole periods
  have h_div := Nat.div_add_mod (e.clock.turns + (wraps - 1)) wraps
  have h_lt := Nat.mod_lt (e.clock.turns + (wraps - 1)) h_steady.wraps_pos
  -- the wrap count is kept in eight bits
  have h_wraps : wraps ≤ 255 := by
    rw [← h_steady.wraps_eq]
    exact Nat.le_of_lt_succ e.config.wrapsPerPeriod.toNat_lt
  rw [← h.wrap_eq] at h_div h_lt
  rcases run_turn_eq_ok h_turn with ⟨h_within, rfl⟩ | ⟨h_period, h_begin⟩
  · -- the period goes on with its next turn
    change min (e.wrap + 1) 255 < e.config.wrapsPerPeriod.toNat at h_within
    rw [h_steady.wraps_eq] at h_within
    have h_next : e.clock.turns + 1 + (wraps - 1) =
        wraps * ((e.clock.turns + (wraps - 1)) / wraps) + (e.wrap + 1) := by omega
    have h_poised : Poised wraps origin n late inForce
        { e.later e.clock.overflowAt with wrap := min (e.wrap + 1) 255 } := by
      refine h.overflow_within h_queue ?_ (by omega)
      rw [h_next, Nat.mul_add_mod, Nat.mod_eq_of_lt (by omega)]
      omega
    exact h_poised.settle h_fall h_orderly h_bounded h_renewed
  · -- the last turn of the period is over
    change e.config.wrapsPerPeriod.toNat ≤ min (e.wrap + 1) 255 at h_period
    rw [h_steady.wraps_eq] at h_period
    have h_turns : e.clock.turns + 1 = 1 + (e.clock.turns + (wraps - 1)) / wraps * wraps := by
      rw [Nat.mul_comm]
      omega
    exact (h.overflow_begins h_queue h_turns h_begin).settle h_fall h_orderly h_bounded h_renewed

end OnTime

end Engine

end ServoPulse
