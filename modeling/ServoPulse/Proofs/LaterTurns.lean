import ServoPulse.Proofs.CleanRuns
import ServoPulse.Proofs.Journal
import ServoPulse.Proofs.Settling

/-!
# Falls in later turns of the counter

The pulses of the channels end in the first turn of a period, but the falls of a queue may be due in
any turn, at its very beginning, or past the end of the period. An engine without lag that serves
every event at once carries out each of them on time all the same: after its offset from the start
`T` of the period, or at the end of the period if that comes first (`Fall.timeIn`).

An engine on time is `Awaiting` the falls that are left. All of them are ahead, and the compare
channel is armed for the first one exactly if that is in the present turn, so that the next event is
either this fall or the end of the turn, and no fall comes before it (`Awaiting.next`,
`Awaiting.event_le`). What is due at the event is due right then (`OnTheSpot`), and settling leads
back (`OnTheSpot.settle`). At the end of the period everything that is left is carried out, and from
then on the period is `Over`: whatever an engine asks of the pins comes later.
-/

namespace ServoPulse

/-- The time of a fall in a period that starts at `T` and has `len` ticks. -/
def Fall.timeIn (T : Int) (len : Nat) (f : Fall) : Nat := (T + (min f.due len : Nat)).toNat

/-- The request that carries out a fall in a period that starts at `T` and has `len` ticks. -/
def Fall.driveIn (T : Int) (len : Nat) (f : Fall) : Drive := ⟨f.timeIn T len, f.pin, false⟩

namespace Engine

/-! ### In the midst of a period -/

section MidPeriod

variable {P : Type} {e e' : Engine (Bench P)} {s : Nat}

/-- An engine without lag in the midst of a period: its timer runs, and both flags are down. -/
structure MidPeriod (e : Engine (Bench P)) : Prop where
  lag_eq : e.board.lag = 0
  running : e.clock.running = true
  origin_le : e.clock.origin ≤ e.clock.now
  overflow_down : e.clock.overflowPending = false
  match_down : e.clock.comparePending = false
  not_halted : e.phase ≠ .halted
  wrap_lt : e.wrap < e.config.wrapsPerPeriod.toNat

/-- The engine at the time `s`, with its flags taken. -/
def atTime (e : Engine (Bench P)) (s : Nat) : Engine (Bench P) :=
  e.withClock { e.clock with now := s, overflowPending := false, comparePending := false }

namespace MidPeriod

theorem seen_lt (h : MidPeriod e) : e.seen < e.config.periodTicks := by
  have h_count := e.clock.count_lt
  have h_turns := Nat.mul_le_mul_right ticksPerWrap (Nat.succ_le_of_lt h.wrap_lt)
  rw [Nat.succ_mul] at h_turns
  rw [seen_of_running h.running, Config.periodTicks]
  omega

theorem atTime (h : MidPeriod e) (h_s : e.clock.now ≤ s) : MidPeriod (e.atTime s) :=
  ⟨h.lag_eq, h.running, Nat.le_trans h.origin_le h_s, rfl, rfl, h.not_halted, h.wrap_lt⟩

/-- Within a turn of the counter, an engine sees the time pass. -/
theorem seen_atTime (h : MidPeriod e) (h_s : e.clock.now ≤ s) (h_lt : s < e.clock.overflowAt) :
    (e.atTime s).seen = e.seen + (s - e.clock.now) := by
  have h_count := (Clock.count_of_lt_overflowAt (d := (e.atTime s).clock) h.origin_le rfl h_s
    h_lt).2
  change (e.atTime s).clock.count = e.clock.count + (s - e.clock.now) at h_count
  rw [seen_of_running h.running, seen_of_running (h.atTime h_s).running, h_count, Nat.add_assoc]
  rfl

/-- At the end of a turn the counter starts again from zero. -/
theorem seen_overflow (h : MidPeriod e) (wrap : Nat) :
    seen { e.atTime e.clock.overflowAt with wrap } = wrap * ticksPerWrap ∧
      e.seen + (e.clock.overflowAt - e.clock.now) = (e.wrap + 1) * ticksPerWrap := by
  have h_at := Clock.overflowAt_eq h.origin_le
  have h_count := e.clock.count_lt
  constructor
  · -- the overflow is a whole number of turns after the origin
    have h_zero : (e.atTime e.clock.overflowAt).clock.count = 0 := by
      change (e.clock.overflowAt - e.clock.origin) % ticksPerWrap = 0
      rw [h_at, Nat.add_sub_cancel_left, Nat.mul_mod_right]
    refine (seen_of_running (e := { e.atTime e.clock.overflowAt with wrap }) h.running).trans ?_
    change wrap * ticksPerWrap + (e.atTime e.clock.overflowAt).clock.count = _
    rw [h_zero, Nat.add_zero]
  · rw [seen_of_running h.running, Clock.overflowAt, Nat.succ_mul]
    omega

theorem of_settledNow [PinBank P] (h : MidPeriod e) (h_settled : SettledNow e e') :
    MidPeriod e' ∧ e'.clock.now = e.clock.now ∧ e'.seen = e.seen := by
  have h_clock := h_settled.clock_eq
  refine ⟨⟨h_settled.lag_eq.trans h.lag_eq, ?_, ?_, ?_, ?_, h_settled.not_halted h.not_halted, ?_⟩,
    ?_, ?_⟩
  · -- settling on the spot leaves the clock but for the compare channel
    rw [h_clock]
    exact h.running
  · rw [h_clock]
    exact h.origin_le
  · rw [h_clock]
    exact h.overflow_down
  · rw [h_clock]
    exact h.match_down
  · rw [h_settled.wrap_eq, h_settled.config_eq]
    exact h.wrap_lt
  · rw [h_clock]
  · rw [seen, seen, shown, shown, Clock.count, Clock.count, h_clock, h_settled.wrap_eq]

end MidPeriod

end MidPeriod

/-! ### The falls of a period -/

variable {P : Type} [PinBank P] {T : Int} {len limit s : Nat} {q : List Fall} {base : List Drive}
  {event : Bool} {e e' t : Engine (Bench (Journal P))}

/-- An engine in the period that starts at `T` and has `len` ticks. When the falls `q` were pending
it had made the requests `base`, and those that are not pending any more it has carried out. -/
structure InPeriod (T : Int) (len : Nat) (q : List Fall) (base : List Drive)
    (e : Engine (Bench (Journal P))) : Prop extends MidPeriod e where
  len_eq : e.config.periodTicks = len
  start_add_seen : T + e.seen = e.clock.now
  falls : ∃ done, q = done ++ e.queue.events ∧ (∀ f ∈ done, f.due ≤ e.seen) ∧
    e.pins.drives = base ++ done.map (Fall.driveIn T len)

/-- No fall that is left is overdue. -/
structure OnTheSpot (T : Int) (len : Nat) (q : List Fall) (base : List Drive)
    (e : Engine (Bench (Journal P))) : Prop extends InPeriod T len q base e where
  not_overdue : ∀ f ∈ e.queue.events, e.seen ≤ f.due

/-- All falls that are left are ahead, and the compare channel waits for the first one if that is in
the present turn of the counter. -/
structure Awaiting (T : Int) (len : Nat) (q : List Fall) (base : List Drive)
    (e : Engine (Bench (Journal P))) : Prop extends InPeriod T len q base e where
  ahead : ∀ f ∈ e.queue.events, e.seen < f.due
  compare_eq : e.clock.compare =
    (e.queue.events.head?.filter (·.wrap = e.wrap)).map Fall.compareValue

/-- The period is over: all its falls were carried out, and what was requested since then is as
late. -/
structure Over (T : Int) (len : Nat) (q : List Fall) (base : List Drive)
    (e : Engine (Bench (Journal P))) : Prop where
  lag_eq : e.board.lag = 0
  origin_le : e.clock.origin ≤ e.clock.now
  end_le : T + len ≤ e.clock.now
  falls : ∃ more, e.pins.drives = base ++ q.map (Fall.driveIn T len) ++ more ∧
    ∀ x ∈ more, T + len ≤ x.time ∧ x.time ≤ e.clock.now

omit [PinBank P] in
theorem InPeriod.sorted (h : InPeriod T len q base e) (h_sorted : q.Pairwise (· ≤ ·)) :
    e.queue.events.Pairwise (· ≤ ·) := by
  obtain ⟨done, h_q, -⟩ := h.falls
  rw [h_q, List.pairwise_append] at h_sorted
  exact h_sorted.2.1

omit [PinBank P] in
/-- A fall that is due now has its time now. -/
theorem InPeriod.driveIn_eq (h : InPeriod T len q base e) {f : Fall} (h_due : f.due = e.seen) :
    f.driveIn T len = ⟨e.clock.now, f.pin, false⟩ := by
  have h_seen := h.seen_lt
  rw [h.len_eq] at h_seen
  have h_start := h.start_add_seen
  have h_time : f.timeIn T len = e.clock.now := by
    rw [Fall.timeIn, h_due, Nat.min_eq_left (Nat.le_of_lt h_seen), h_start, Int.toNat_natCast]
  rw [Fall.driveIn, h_time]

/-- **Settling on the spot.** It carries out what is due, and leaves the rest to wait for. -/
theorem OnTheSpot.settle (h : OnTheSpot T len q base e) (h_sorted : q.Pairwise (· ≤ ·))
    (h_run : fallDue.run .debug e = .ok () e') :
    Awaiting T len q base e' ∧ ∃ done, e.queue.events = done ++ e'.queue.events ∧
      (PinBank.driveAll false e'.clock.now (done.map Fall.pin)).run .debug e.pins
        = .ok () e'.pins := by
  obtain ⟨before, h_q, h_before, h_drives⟩ := h.falls
  have h_settled := settledNow_of_run_fallDue h.lag_eq h.match_down (h.sorted h_sorted) h_run
  obtain ⟨h_mid, h_now, h_seen⟩ := h.toMidPeriod.of_settledNow h_settled
  obtain ⟨done, h_split, h_done, h_pins⟩ := h_settled.falls
  -- carried out means due by now, and none was overdue, so each was due just now
  have h_due : ∀ f ∈ done, f.due = e.seen := fun f hf => by
    refine Nat.le_antisymm (h_done f hf) (h.not_overdue f ?_)
    rw [h_split]
    exact List.mem_append_left _ hf
  refine ⟨{
    toMidPeriod := h_mid
    len_eq := (congrArg Config.periodTicks h_settled.config_eq).trans h.len_eq
    start_add_seen := ?_
    falls := ⟨before ++ done, ?_, fun f hf => ?_, ?_⟩
    ahead := ?_
    compare_eq := ?_ }, done, h_split, ?_⟩
  · -- the start of the period does not move
    rw [h_seen, h_now]
    exact h.start_add_seen
  · -- what is done grows by what settling carried out
    rw [h_q, h_split, List.append_assoc]
  · rw [h_seen]
    exact (List.mem_append.1 hf).elim (h_before f) (h_done f)
  · -- each request carries the present instant, which is the time of its fall
    have h_same : done.map (Fall.driveIn T len) =
        (done.map Fall.pin).map (⟨e.clock.now, ·, false⟩) := by
      rw [List.map_map]
      exact List.map_congr_left fun f hf => h.driveIn_eq (h_due f hf)
    change e'.board.pins.drives = _
    rw [Journal.drives_driveAll h_pins, h_drives, List.map_append, h_same, List.append_assoc]
  · -- what is left is ahead, and the compare channel waits for its first
    rw [h_seen]
    exact h_settled.ahead
  · rw [h_settled.wrap_eq]
    exact h_settled.compare_eq
  · rw [h_now]
    exact h_pins

/-! ### The next event -/

/-- What the timer comes to next: the first fall, or the end of a turn in which there is none. -/
inductive Next (e : Engine (Bench (Journal P))) : Prop
  | fall {f : Fall} {rest : List Fall} (h_queue : e.queue.events = f :: rest)
      (h_compare : e.clock.compare = some f.compareValue)
      (h_ahead : e.clock.count < f.compareValue.val)
      (h_event : e.clock.eventAt = e.clock.now + (f.compareValue.val - e.clock.count))
      (h_due : f.due = e.seen + (e.clock.eventAt - e.clock.now))
      (h_turn : e.clock.eventAt < e.clock.overflowAt)
  | overflow (h_match : e.clock.matchAt? = none) (h_event : e.clock.eventAt = e.clock.overflowAt)
      (h_due : ∀ f ∈ e.queue.events, (e.wrap + 1) * ticksPerWrap ≤ f.due)

namespace Awaiting

omit [PinBank P] in
theorem next (h : Awaiting T len q base e) (h_sorted : q.Pairwise (· ≤ ·)) : Next e := by
  have h_seen := seen_of_running h.running
  -- without an armed value only the overflow comes
  have h_none (h_compare : e.clock.compare = none) :
      e.clock.matchAt? = none ∧ e.clock.eventAt = e.clock.overflowAt := by
    have h_match : e.clock.matchAt? = none := by rw [Clock.matchAt?, h_compare, Option.map_none]
    exact ⟨h_match, by rw [Clock.eventAt, h_match]⟩
  have h_compare := h.compare_eq
  cases h_queue : e.queue.events with
  | nil =>
    -- nothing is pending, so only the overflow is left
    rw [h_queue] at h_compare
    obtain ⟨h_match, h_event⟩ := h_none h_compare
    exact .overflow h_match h_event fun f hf => absurd (h_queue ▸ hf) List.not_mem_nil
  | cons f rest =>
    have h_due := h.ahead f (h_queue ▸ List.mem_cons_self)
    have h_value := f.wrap_mul_add_compareValue
    rw [h_queue, List.head?_cons, Option.filter_some] at h_compare
    -- the first fall has its match in this turn
    by_cases h_wrap : f.wrap = e.wrap
    · rw [if_pos (by simpa using h_wrap)] at h_compare
      rw [h_wrap] at h_value
      -- so the counter is short of the value, and the match comes before the overflow
      have h_ahead : e.clock.count < f.compareValue.val := by omega
      obtain ⟨-, h_event, h_turn⟩ := Clock.next_of_ahead h_compare h_ahead
      exact .fall h_queue h_compare h_ahead h_event (by omega) h_turn
    · rw [if_neg (by simpa using h_wrap)] at h_compare
      obtain ⟨h_match, h_event⟩ := h_none h_compare
      refine .overflow h_match h_event fun g hg => ?_
      -- the first fall is in a later turn, and no other one is before it
      have h_first : (e.wrap + 1) * ticksPerWrap ≤ f.due := by
        have h_later : e.wrap < f.wrap := by
          refine Nat.lt_of_le_of_ne ?_ (Ne.symm h_wrap)
          refine (Nat.le_div_iff_mul_le (by decide)).2 ?_
          omega
        have h_turns : (e.wrap + 1) * ticksPerWrap ≤ f.wrap * ticksPerWrap :=
          Nat.mul_le_mul_right ticksPerWrap h_later
        omega
      have h_order := h.sorted h_sorted
      rw [h_queue] at h_order hg
      exact Nat.le_trans h_first (FallQueue.first_due_le h_order hg)

omit [PinBank P] in
/-- No fall comes before the next event. -/
theorem event_le (h : Awaiting T len q base e) (h_sorted : q.Pairwise (· ≤ ·)) :
    ∀ f ∈ e.queue.events, e.seen + (e.clock.eventAt - e.clock.now) ≤ f.due := by
  intro g hg
  cases h.next h_sorted with
  | @fall f rest h_queue _ _ _ h_due _ =>
    have h_order := h.sorted h_sorted
    rw [h_queue] at h_order hg
    -- the first fall is the next event, and the others are not before it
    exact h_due ▸ FallQueue.first_due_le h_order hg
  | overflow _ h_event h_due =>
    -- all falls are in later turns
    rw [h_event, (h.toMidPeriod.seen_overflow 0).2]
    exact h_due g hg

omit [PinBank P] in
/-- What is due at a time up to the next event, within the turn, is due right then. -/
theorem atTime (h : Awaiting T len q base e) (h_s : e.clock.now ≤ s)
    (h_lt : s < e.clock.overflowAt) : InPeriod T len q base (e.atTime s) := by
  have h_seen := h.toMidPeriod.seen_atTime h_s h_lt
  obtain ⟨done, h_q, h_done, h_drives⟩ := h.falls
  refine ⟨h.toMidPeriod.atTime h_s, h.len_eq, ?_, done, h_q, fun f hf => ?_, h_drives⟩
  · -- the start stays where it is, as the engine sees the time that has passed
    have h_start := h.start_add_seen
    change T + (e.atTime s).seen = s
    rw [h_seen]
    omega
  · rw [h_seen]
    exact Nat.le_trans (h_done f hf) (Nat.le_add_right _ _)

omit [PinBank P] in
/-- **Waiting.** Before the next event nothing is due. -/
theorem wait (h : Awaiting T len q base e) (h_sorted : q.Pairwise (· ≤ ·)) (h_s : e.clock.now ≤ s)
    (h_event : s < e.clock.eventAt) : Awaiting T len q base (e.atTime s) := by
  have h_lt := Nat.lt_of_lt_of_le h_event e.clock.eventAt_le_overflowAt
  refine ⟨h.atTime h_s h_lt, fun f hf => ?_, h.compare_eq⟩
  have h_le := h.event_le h_sorted f hf
  rw [h.toMidPeriod.seen_atTime h_s h_lt]
  omega

end Awaiting

/-! ### Requests at one instant -/

/-- The engine `t` stands at the time `s`, as it did when it had made the requests `before`. -/
structure StandsAt (s origin : Nat) (before : List Drive) (t : Engine (Bench (Journal P))) :
    Prop where
  lag_eq : t.board.lag = 0
  now_eq : t.clock.now = s
  origin_eq : t.clock.origin = origin
  drives : ∃ new, t.pins.drives = before ++ new ∧ ∀ x ∈ new, x.time = s

theorem StandsAt.drive {origin : Nat} {before : List Drive} {level : Bool} {pins : List Nat}
    {j : Journal P} {t' : Engine (Bench (Journal P))} (h : StandsAt s origin before t)
    (h_run : (PinBank.driveAll level t.clock.now pins).run .debug t.pins = .ok () j)
    (h_board : t'.board = (t.withPins j).board) : StandsAt s origin before t' := by
  obtain ⟨new, h_drives, h_new⟩ := h.drives
  rw [h.now_eq] at h_run
  have h_more := Journal.drives_driveAll h_run
  -- the setup is untouched; the requests of the bank are those of before and the new ones
  refine ⟨?_, ?_, ?_, new ++ pins.map (⟨s, ·, level⟩), ?_, fun x hx => ?_⟩
  · rw [h_board]
    exact h.lag_eq
  · change t'.board.clock.now = s
    rw [h_board]
    exact h.now_eq
  · change t'.board.clock.origin = origin
    rw [h_board]
    exact h.origin_eq
  · change t'.board.pins.drives = _
    rw [h_board, ← List.append_assoc, ← h_drives]
    exact h_more
  · rcases List.mem_append.1 hx with hx | hx
    · exact h_new x hx
    · -- all pins are driven at one instant
      obtain ⟨pin, -, rfl⟩ := List.mem_map.1 hx
      rfl

theorem StandsAt.serveStable (s origin : Nat) (before : List Drive) :
    ServeStable (StandsAt (P := P) s origin before) where
  lower {t t' f rest} h _ _ _ h_run := by
    obtain ⟨j, h_pins, rfl⟩ := run_lower_eq_ok_iff.1 h_run
    -- lowering one pin is driving a list of one
    have h_one : (PinBank.driveAll false t.clock.now [f.pin]).run .debug t.pins = .ok () j :=
      Action.run_forM_cons_eq_ok_iff.2 ⟨j, h_pins, Action.run_forM_nil_eq_ok_iff.2 rfl⟩
    exact h.drive h_one rfl
  arm {t f rest limit clock} h _ _ _ h_limit h_pass := by
    -- without lag the arm takes no time
    obtain ⟨-, rfl⟩ := Checked.run_add_debug_iff.1 h_limit
    rw [h.lag_eq] at h_pass
    obtain rfl := Clock.passUntil_eq_of_le h_pass (Nat.le_refl _)
    exact ⟨h.lag_eq, h.now_eq, h.origin_eq, h.drives⟩
  setClock h h_now h_origin :=
    ⟨h.lag_eq, h_now.trans h.now_eq, h_origin.trans h.origin_eq, h.drives⟩
  setWrap h := ⟨h.lag_eq, h.now_eq, h.origin_eq, h.drives⟩
  setPhase h := ⟨h.lag_eq, h.now_eq, h.origin_eq, h.drives⟩
  beginPeriod {t t'} h h_run := by
    -- two groups of requests at the same instant
    obtain ⟨low, high, h_low, h_high, rfl⟩ := run_beginPeriod_eq_ok h_run
    have h_lowered : StandsAt s origin before (t.withPins low) := h.drive h_low rfl
    exact h_lowered.drive h_high rfl

/-- Serving the next event makes requests of the instant at which it comes, and none if none
comes. -/
theorem standsAt_of_run_serveNext (h_lag : e.board.lag = 0)
    (h_run : (serveNext limit).run .debug e = .ok event e') :
    e'.clock.origin = e.clock.origin ∧ ∃ new, e'.pins.drives = e.pins.drives ++ new ∧
      (∀ x ∈ new, x.time = e'.clock.now) ∧ (event = false → new = []) := by
  obtain ⟨clock, h_advance, h_rest⟩ := run_serveNext_eq_ok h_run
  have h_origin := (Clock.keeps_advanceUntil limit h_advance).origin_eq
  rcases h_rest with ⟨-, rfl⟩ | ⟨rfl, h_serve⟩
  · -- the limit came first and nothing was requested
    exact ⟨h_origin, [], (List.append_nil _).symm, nofun, fun _ => rfl⟩
  · -- the interrupt begins at the instant that the clock has reached
    have h_before : StandsAt clock.now clock.origin e.pins.drives (e.withClock clock) :=
      ⟨h_lag, rfl, rfl, [], (List.append_nil _).symm, nofun⟩
    have h_after := (StandsAt.serveStable _ _ _).interrupt h_before h_serve
    obtain ⟨new, h_drives, h_new⟩ := h_after.drives
    refine ⟨h_after.origin_eq.trans h_origin, new, h_drives, fun x hx => ?_, nofun⟩
    rw [h_new x hx, h_after.now_eq]

/-! ### The end of a period -/

/-- The start of a period requests the falls that are left over, and then the rises. -/
theorem drives_beginPeriod (h_run : beginPeriod.run .debug e = .ok () e') :
    e'.pins.drives = e.pins.drives ++ e.queue.events.map (⟨e.clock.now, ·.pin, false⟩) ++
      e.table.step.falls.map (⟨e.clock.now, ·.pin, true⟩) := by
  obtain ⟨low, high, h_low, h_high, rfl⟩ := run_beginPeriod_eq_ok h_run
  change high.drives = _
  rw [Journal.drives_driveAll h_high, Journal.drives_driveAll h_low, List.map_map, List.map_map]
  rfl

/-- What becomes of an engine that awaits the falls of its period when one event is served: it
carries out the first of them and awaits the others, or the period is over. -/
inductive Served (T : Int) (len : Nat) (q : List Fall) (base : List Drive)
    (e e' : Engine (Bench (Journal P))) : Prop
  | awaiting (h : Awaiting T len q base e') (done : List Fall)
      (h_split : e.queue.events = done ++ e'.queue.events)
      (h_pins : (PinBank.driveAll false e'.clock.now (done.map Fall.pin)).run .debug e.pins
        = .ok () e'.pins)
  | ended (h : Over T len q base e') (h_now : e'.clock.now = T + len)

theorem Served.of_settle (h : Awaiting T len q base e' ∧ ∃ done,
    e.queue.events = done ++ e'.queue.events ∧
      (PinBank.driveAll false e'.clock.now (done.map Fall.pin)).run .debug e.pins
        = .ok () e'.pins) : Served T len q base e e' := by
  obtain ⟨h_awaiting, done, h_split, h_pins⟩ := h
  exact .awaiting h_awaiting done h_split h_pins

namespace Awaiting

omit [PinBank P] in
/-- **The end of a turn.** If it is not the last one of the period, the next one begins. -/
theorem nextTurn (h : Awaiting T len q base e) (h_sorted : q.Pairwise (· ≤ ·))
    (h_event : e.clock.eventAt = e.clock.overflowAt)
    (h_within : e.wrap + 1 < e.config.wrapsPerPeriod.toNat) :
    OnTheSpot T len q base { e.atTime e.clock.overflowAt with wrap := e.wrap + 1 } := by
  have h_later := e.clock.lt_overflowAt
  obtain ⟨h_new, h_seen⟩ := h.toMidPeriod.seen_overflow (e.wrap + 1)
  rw [← h_seen] at h_new
  obtain ⟨done, h_q, h_done, h_drives⟩ := h.falls
  have h_mid := h.toMidPeriod.atTime (Nat.le_of_lt h_later)
  refine {
    toMidPeriod := { h_mid with wrap_lt := h_within }
    len_eq := h.len_eq
    start_add_seen := ?_
    falls := ⟨done, h_q, fun f hf => ?_, h_drives⟩
    not_overdue := fun f hf => ?_ }
  · -- a full turn was seen, and the count of turns has one more
    have h_start := h.start_add_seen
    change T + seen { e.atTime e.clock.overflowAt with wrap := e.wrap + 1 } = e.clock.overflowAt
    rw [h_new]
    omega
  · -- what was due in the turn before is due in this one
    rw [h_new]
    exact Nat.le_trans (h_done f hf) (Nat.le_add_right _ _)
  · -- no fall is before the event, and the event is the end of the turn
    rw [h_new, ← h_event]
    exact h.event_le h_sorted f hf

omit [PinBank P] in
/-- The last turn of the period ends where the period ends. -/
theorem end_of_last (h : Awaiting T len q base e)
    (h_last : e.config.wrapsPerPeriod.toNat ≤ e.wrap + 1) :
    (e.wrap + 1) * ticksPerWrap = len ∧ (e.clock.overflowAt : Int) = T + len := by
  have h_len : (e.wrap + 1) * ticksPerWrap = len := by
    rw [← h.len_eq, Config.periodTicks, Nat.le_antisymm h_last h.wrap_lt]
  have h_seen := (h.toMidPeriod.seen_overflow 0).2
  have h_next := e.clock.lt_overflowAt
  have h_start := h.start_add_seen
  exact ⟨h_len, by omega⟩

omit [PinBank P] in
/-- What is left in the last turn is due at the end of the period or later, and so it is requested
at the end. -/
theorem driveIn_of_last (h : Awaiting T len q base e) (h_sorted : q.Pairwise (· ≤ ·))
    (h_event : e.clock.eventAt = e.clock.overflowAt)
    (h_last : e.config.wrapsPerPeriod.toNat ≤ e.wrap + 1) {f : Fall} (hf : f ∈ e.queue.events) :
    f.driveIn T len = ⟨e.clock.overflowAt, f.pin, false⟩ := by
  obtain ⟨h_len, h_end⟩ := h.end_of_last h_last
  have h_due := h.event_le h_sorted f hf
  rw [h_event, (h.toMidPeriod.seen_overflow 0).2, h_len] at h_due
  rw [Fall.driveIn, Fall.timeIn, Nat.min_eq_right h_due, ← h_end, Int.toNat_natCast]

/-- **The end of a period.** All falls that are left are carried out right then. -/
theorem finish (h : Awaiting T len q base e) (h_sorted : q.Pairwise (· ≤ ·))
    (h_event : e.clock.eventAt = e.clock.overflowAt)
    (h_last : e.config.wrapsPerPeriod.toNat ≤ e.wrap + 1)
    (h_begin : beginPeriod.run .debug { e.atTime e.clock.overflowAt with wrap := 0 } = .ok () t)
    (h_run : fallDue.run .debug t = .ok () e') :
    Over T len q base e' ∧ e'.clock.now = T + len := by
  obtain ⟨done, h_q, -, h_drives⟩ := h.falls
  obtain ⟨-, h_end⟩ := h.end_of_last h_last
  have h_left : ∀ f ∈ e.queue.events, f.driveIn T len = ⟨e.clock.overflowAt, f.pin, false⟩ :=
    fun f hf => h.driveIn_of_last h_sorted h_event h_last hf
  have h_begun := periodBegun_of_run h_begin
  have h_clock : t.clock = (e.atTime e.clock.overflowAt).clock := h_begun.clock_eq
  have h_stands : StandsAt e.clock.overflowAt e.clock.origin (base ++ q.map (Fall.driveIn T len))
      t := by
    refine ⟨h_begun.lag_eq.trans h.lag_eq, (congrArg Clock.now h_clock :),
      (congrArg Clock.origin h_clock :),
      -- the requests are the falls left, late at the end of the period, and the rises behind them
      e.table.step.falls.map (⟨e.clock.overflowAt, ·.pin, true⟩), ?_, fun x hx => ?_⟩
    · rw [drives_beginPeriod h_begin, h_q, List.map_append, List.map_congr_left h_left,
        ← List.append_assoc base, ← h_drives]
      rfl
    · obtain ⟨f, -, rfl⟩ := List.mem_map.1 hx
      rfl
  obtain ⟨h_lag, h_now, h_origin, new, h_new, h_stamp⟩ :=
    (StandsAt.serveStable _ _ _).fallDue h_stands h_run
  -- settling the new queue adds requests of this instant only
  refine ⟨⟨h_lag, ?_, ?_, new, h_new, fun x hx => ?_⟩, ?_⟩
  · rw [h_origin, h_now]
    exact Nat.le_trans h.origin_le (Nat.le_of_lt e.clock.lt_overflowAt)
  · exact h_now ▸ Int.le_of_eq h_end.symm
  · rw [h_stamp x hx, h_now, h_end]
    exact ⟨Int.le_refl _, Nat.le_refl _⟩
  · rw [h_now, h_end]

/-- **A turn of the counter.** It ends the period if it was the last one, and settles the queue. -/
theorem endTurn (h : Awaiting T len q base e) (h_sorted : q.Pairwise (· ≤ ·))
    (h_event : e.clock.eventAt = e.clock.overflowAt)
    (h_turn : turn.run .debug (e.atTime e.clock.overflowAt) = .ok () t)
    (h_run : fallDue.run .debug t = .ok () e') : Served T len q base e e' := by
  have h_wraps : e.config.wrapsPerPeriod.toNat ≤ 255 :=
    Nat.le_of_lt_succ e.config.wrapsPerPeriod.toNat_lt
  have h_wrap := h.wrap_lt
  -- the count of turns does not get to where it stops
  have h_count : min (e.wrap + 1) 255 = e.wrap + 1 := by omega
  -- the turn is inside the period, or it is the last one
  rcases run_turn_eq_ok h_turn with ⟨h_within, rfl⟩ | ⟨h_last, h_begin⟩
  · change min (e.wrap + 1) 255 < e.config.wrapsPerPeriod.toNat at h_within
    rw [h_count] at h_within
    have h_spot : OnTheSpot T len q base
        { e.atTime e.clock.overflowAt with wrap := min (e.wrap + 1) 255 } := by
      rw [h_count]
      exact h.nextTurn h_sorted h_event h_within
    exact .of_settle (h_spot.settle h_sorted h_run)
  · change e.config.wrapsPerPeriod.toNat ≤ min (e.wrap + 1) 255 at h_last
    rw [h_count] at h_last
    obtain ⟨h_over, h_now⟩ := h.finish h_sorted h_event h_last h_begin h_run
    exact .ended h_over h_now

/-- **One event served at once.** It carries out the falls that come with it, or it ends the
period. -/
theorem serve (h : Awaiting T len q base e) (h_sorted : q.Pairwise (· ≤ ·))
    (h_run : (serveNext limit).run .debug e = .ok event e') : Served T len q base e e' := by
  obtain ⟨clock, h_advance, h_rest⟩ := run_serveNext_eq_ok h_run
  obtain ⟨-, h_reach⟩ := Clock.run_advanceUntil_debug_iff.1 h_advance
  have h_later := e.clock.lt_eventAt
  by_cases h_limit : e.clock.eventAt ≤ limit
  swap
  · -- the limit comes first
    rw [Clock.reach, if_neg fun h_and => h_limit h_and.2] at h_reach
    obtain ⟨rfl, rfl⟩ := Prod.mk.inj h_reach
    obtain ⟨-, rfl⟩ := h_rest.resolve_right fun h_and => Bool.noConfusion h_and.1
    have h_time : e.withClock { e.clock with now := max e.clock.now limit } =
        e.atTime (max e.clock.now limit) := by
      simp only [Engine.atTime, h.overflow_down, h.match_down]
    rw [h_time]
    exact .awaiting (h.wait h_sorted (Nat.le_max_left _ _) (by omega)) [] rfl rfl
  -- the limit is far enough, so the event is the match or the overflow
  cases h.next h_sorted with
  | @fall f rest h_queue h_compare h_ahead h_event h_due h_turn =>
    rw [Clock.reach_of_ahead h.running h_compare h_ahead (h_event ▸ h_limit), ← h_event] at h_reach
    obtain ⟨rfl, rfl⟩ := Prod.mk.inj h_reach
    obtain ⟨-, h_serve⟩ := h_rest.resolve_left fun h_and => Bool.noConfusion h_and.1
    -- the match calls for the falls alone
    have h_fall : fallDue.run .debug (e.atTime e.clock.eventAt) = .ok () e' :=
      run_interrupt_of_match h_serve h.not_halted h.overflow_down rfl
    have h_spot : OnTheSpot T len q base (e.atTime e.clock.eventAt) := by
      refine ⟨h.atTime (Nat.le_of_lt h_later) h_turn, fun g hg => ?_⟩
      rw [h.toMidPeriod.seen_atTime (Nat.le_of_lt h_later) h_turn]
      exact h.event_le h_sorted g hg
    exact .of_settle (h_spot.settle h_sorted h_fall)
  | overflow h_match h_event h_due =>
    -- the overflow calls for a turn first
    rw [Clock.reach_of_no_match h.running h_match h_limit] at h_reach
    obtain ⟨rfl, rfl⟩ := Prod.mk.inj h_reach
    obtain ⟨-, h_serve⟩ := h_rest.resolve_left fun h_and => Bool.noConfusion h_and.1
    obtain ⟨t, h_turn, h_fall⟩ := run_interrupt_of_overflow h_serve h.not_halted rfl
    exact h.endTurn h_sorted h_event h_turn h_fall

end Awaiting

end Engine

end ServoPulse
