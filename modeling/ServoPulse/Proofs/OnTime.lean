import ServoPulse.Proofs.NoEarlyFall
import ServoPulse.Proofs.Timely

/-!
# An engine on time

The state of an engine whose interrupts have all been served at once, and whose compare channel is
armed soon enough (`OnTime`): it has counted the turns of the counter that have passed (`wrap_eq`),
its queue holds the falls of the present period that are still to come, the compare channel is armed
for the first of them (`compare_eq`), and the changes so far are the scheduled ones (`timely`). The
next event of the timer is then the earliest pending fall (`OnTime.next_of_pending`), or the end of
the turn if there is none (`OnTime.next_of_empty`).

Between two events nothing is due, so nothing need happen (`OnTime.quiet`).
-/

namespace ServoPulse

namespace Engine

variable {P : Type} [PinBank P] [LawfulPinBank P] {wraps origin n : Nat}
  {late : Nat → Nat → Nat} {inForce inForce' : Nat → ChannelTable}
  {e e' : Engine (Bench (Scope P))}

/-- The engine at the time `s`, with its flags taken. -/
def later (e : Engine (Bench (Scope P))) (s : Nat) : Engine (Bench (Scope P)) :=
  e.withClock { e.clock with now := s, overflowPending := false, comparePending := false }

/-- Up to now the tables in force are those that were in force, and from now on it is the table
of the engine. -/
structure Renewed {β : Type} (inForce inForce' : Nat → ChannelTable) (e : Engine (Bench β)) :
    Prop where
  old : ∀ T ≤ e.clock.now, inForce' T = inForce T
  new : ∀ T, e.clock.now < T → inForce' T = e.table

omit [PinBank P] [LawfulPinBank P] in
/-- No fall of a table in force is longer than the largest target. -/
theorem Renewed.short (h : Renewed inForce inForce' e) (h_bounded : Bounded e)
    (h_old : ∀ T, ∀ f ∈ (inForce T).step.falls, f.due ≤ maxTargetTicks) :
    ∀ T, ∀ f ∈ (inForce' T).step.falls, f.due ≤ maxTargetTicks := by
  intro T f hf
  by_cases h_T : T ≤ e.clock.now
  · exact h_old T f (h.old T h_T ▸ hf)
  · rw [h.new T (Nat.lt_of_not_le h_T)] at hf
    exact h_bounded.falls_short f hf

/-- What stays the same while an engine runs and has served all its events. -/
structure Steady (wraps origin : Nat) (e : Engine (Bench (Scope P))) : Prop where
  orderly : Orderly e
  bounded : Bounded e
  started : e.started = true
  wraps_eq : e.config.wrapsPerPeriod.toNat = wraps
  lag_le : e.board.lag ≤ maxLag
  running : e.clock.running = true
  origin_eq : e.clock.origin = origin
  overflow_flag : e.clock.overflowPending = false

/-- An engine whose level changes are on schedule, after its first `n` changes. -/
structure OnTime (wraps origin n : Nat) (late : Nat → Nat → Nat) (inForce : Nat → ChannelTable)
    (e : Engine (Bench (Scope P))) : Prop where
  steady : Steady wraps origin e
  wrap_eq : e.wrap = (e.clock.turns + (wraps - 1)) % wraps
  compare_eq : e.clock.compare = e.queue.events.head?.map Fall.compareValue
  /-- From now on the table of the engine is in force. -/
  in_force : ∀ T, e.clock.now < T → inForce T = e.table
  timely : Timely wraps origin n late inForce e.clock.now e.clock.now e

namespace Steady

theorem origin_le (h : Steady wraps origin e) : origin ≤ e.clock.now := by
  rw [← h.origin_eq]
  exact h.bounded.origin_le

theorem turns_eq (h : Steady wraps origin e) :
    e.clock.turns = (e.clock.now - origin) / ticksPerWrap := by
  rw [Clock.turns, h.origin_eq]

theorem wraps_pos (h : Steady wraps origin e) : 0 < wraps := by
  rw [← h.wraps_eq]
  exact ((Config.validate_eq_ok_iff _).1 (h.orderly.tied.prepared.valid h.started)).1

theorem tied_later (h : Steady wraps origin e) (s : Nat) : Tied (e.later s) :=
  h.orderly.tied.of_time _ _ _

theorem not_halted (h : Steady wraps origin e) : e.phase ≠ .halted := by
  rw [ne_eq, h.orderly.halted_iff, h.started]
  exact nofun

end Steady

namespace OnTime

/-- In the first turn of a period no turn has been counted. -/
theorem wrap_eq_zero {k turns : Nat} (h_pos : 0 < wraps) (h_turns : turns = 1 + k * wraps) :
    (turns + (wraps - 1)) % wraps = 0 := by
  have h_eq : turns + (wraps - 1) = (k + 1) * wraps := by
    rw [h_turns, Nat.add_mul]
    omega
  rw [h_eq, Nat.mul_mod_left]

/-! ### What comes next -/

/-- A pending fall is one of the present period, which is in its first turn. -/
theorem pending_turn {k : Nat} {f : Fall} (h : OnTime wraps origin n late inForce e)
    (hf : f ∈ (inForce (periodStart wraps origin k)).step.falls)
    (h_le : periodStart wraps origin k ≤ e.clock.now)
    (h_lt : e.clock.now < periodStart wraps origin k + f.due) :
    e.clock.turns = 1 + k * wraps ∧
      e.clock.count = e.clock.now - periodStart wraps origin k := by
  -- a fall of the period comes within one turn of the counter
  have h_short := Fall.due_lt_ticksPerWrap (h.timely.short _ f hf)
  rw [h.steady.turns_eq, Clock.count, h.steady.origin_eq]
  exact turn_of_periodStart h_le (Nat.lt_trans h_lt (Nat.add_lt_add_left h_short _))

/-- A period that has started by the end of the present turn has started by now. -/
theorem start_le_of_turn {k s : Nat} (h : OnTime wraps origin n late inForce e)
    (h_le : e.clock.now ≤ s) (h_lt : s < e.clock.overflowAt)
    (h_start : periodStart wraps origin k ≤ s) : periodStart wraps origin k ≤ e.clock.now := by
  have h_origin := h.steady.origin_le
  -- within one turn, the number of turns is that of the present
  have h_turns := (Clock.count_of_lt_overflowAt (d := { e.clock with now := s })
    h.steady.bounded.origin_le rfl h_le h_lt).1
  change (s - e.clock.origin) / ticksPerWrap = _ at h_turns
  rw [h.steady.origin_eq, h.steady.turns_eq] at h_turns
  -- the starts so far are those that many turns allow for
  rw [periodStart_le_iff (Nat.le_trans h_origin h_le), h_turns] at h_start
  exact (periodStart_le_iff h_origin).2 h_start

/-- With no fall pending, the next event of the timer is the end of the turn. -/
theorem next_of_empty (h : OnTime wraps origin n late inForce e) (h_queue : e.queue.events = []) :
    e.clock.matchAt? = none ∧ e.clock.eventAt = e.clock.overflowAt := by
  have h_match : e.clock.matchAt? = none := by
    rw [Clock.matchAt?, h.compare_eq, h_queue]
    rfl
  exact ⟨h_match, by rw [Clock.eventAt, h_match]⟩

/-- With a fall pending, the next event of the timer is the earliest fall: the value armed for it is
still ahead of the counter in this turn. -/
theorem next_of_pending {f : Fall} {rest : List Fall} (h : OnTime wraps origin n late inForce e)
    (h_queue : e.queue.events = f :: rest) :
    ∃ k, e.clock.turns = 1 + k * wraps ∧ periodStart wraps origin k ≤ e.clock.now ∧
      e.clock.compare = some f.compareValue ∧ e.clock.count < f.compareValue.val ∧
      e.clock.now + (f.compareValue.val - e.clock.count) = periodStart wraps origin k + f.due ∧
      e.clock.eventAt = periodStart wraps origin k + f.due ∧
      e.clock.eventAt < e.clock.overflowAt := by
  -- the first of the queue belongs to a period that has begun
  obtain ⟨k, hf, h_le, h_lt⟩ := (h.timely.pending_iff f).1 (h_queue ▸ List.mem_cons_self)
  obtain ⟨h_turns, h_count⟩ := h.pending_turn hf h_le h_lt
  have h_value := Fall.val_compareValue (h.timely.short _ f hf)
  have h_compare : e.clock.compare = some f.compareValue := by
    rw [h.compare_eq, h_queue]
    rfl
  -- it is ahead of the counter, since its time is ahead of the clock
  have h_ahead : e.clock.count < f.compareValue.val := by omega
  have h_at :
      e.clock.now + (f.compareValue.val - e.clock.count) = periodStart wraps origin k + f.due := by
    omega
  obtain ⟨-, h_event, h_overflow⟩ := Clock.next_of_ahead h_compare h_ahead
  exact ⟨k, h_turns, h_le, h_compare, h_ahead, h_at, h_event.trans h_at, h_overflow⟩

/-- No fall comes before the next event of the timer. -/
theorem event_le {k : Nat} {f : Fall} (h : OnTime wraps origin n late inForce e)
    (hf : f ∈ (inForce (periodStart wraps origin k)).step.falls)
    (h_le : periodStart wraps origin k ≤ e.clock.now)
    (h_lt : e.clock.now < periodStart wraps origin k + f.due) :
    e.clock.eventAt ≤ periodStart wraps origin k + f.due := by
  -- a pending fall keeps the queue from being empty
  have h_mem := (h.timely.pending_iff f).2 ⟨k, hf, h_le, h_lt⟩
  obtain ⟨g, rest, h_queue⟩ := List.exists_cons_of_ne_nil (List.ne_nil_of_mem h_mem)
  obtain ⟨l, h_turns, -, -, -, -, h_event, -⟩ := h.next_of_pending h_queue
  -- both falls are of periods that have begun with this turn, and there is only one
  have h_same : periodStart wraps origin k = periodStart wraps origin l :=
    periodStart_congr ((h.pending_turn hf h_le h_lt).1.symm.trans h_turns)
  have h_first : g.due ≤ f.due := by
    have h_sorted := h.timely.sorted
    rw [h_queue] at h_sorted h_mem
    exact FallQueue.first_due_le h_sorted h_mem
  calc e.clock.eventAt = periodStart wraps origin l + g.due := h_event
    _ ≤ periodStart wraps origin l + f.due := Nat.add_le_add_left h_first _
    _ = periodStart wraps origin k + f.due := by rw [h_same]

/-! ### Staying on time -/

/-- **Between events.** As long as no event of the timer comes, nothing is due, and whatever
is written to the table only counts from now on. -/
theorem quiet (h : OnTime wraps origin n late inForce e) (h_steady : Steady wraps origin e')
    (h_wrap : e'.wrap = e.wrap) (h_queue : e'.queue = e.queue) (h_edges : e'.edges = e.edges)
    (h_lag : e'.board.lag = e.board.lag) (h_compare : e'.clock.compare = e.clock.compare)
    (h_now : e.clock.now ≤ e'.clock.now) (h_before : e'.clock.now < e.clock.eventAt)
    (h_renewed : Renewed inForce inForce' e') :
    OnTime wraps origin n late inForce' e' := by
  have h_overflow := Nat.lt_of_lt_of_le h_before e.clock.eventAt_le_overflowAt
  -- no turn is completed before the event
  have h_turns : e'.clock.turns = e.clock.turns :=
    (Clock.count_of_lt_overflowAt h.steady.bounded.origin_le
      (h_steady.origin_eq.trans h.steady.origin_eq.symm) h_now h_overflow).1
  have h_timely : Timely wraps origin n late inForce e'.clock.now e'.clock.now e' :=
    h.timely.wait h_queue h_edges h_lag h_now h_now (Nat.le_refl _)
      (fun k => h.start_le_of_turn h_now h_overflow)
      fun k f hf h_le h_lt => Nat.lt_of_lt_of_le h_before (h.event_le hf h_le h_lt)
  -- the queue and the counts are as they were, and every fall is as due as before
  refine ⟨h_steady, ?_, ?_, h_renewed.new,
    h_timely.renew h_renewed.old (h_renewed.short h_steady.bounded h.timely.short)⟩
  · rw [h_wrap, h_turns]
    exact h.wrap_eq
  · rw [h_compare, h_queue]
    exact h.compare_eq

end OnTime

end Engine

end ServoPulse
