import ServoPulse.Proofs.NoEarlyFall

/-!
# No wake-up is lost

However late interrupts are served, and however long it takes to arm the compare channel, a
pending fall is never forgotten: a flag of the timer is up, or the compare channel is armed for
the earliest fall and the counter has yet to reach it (`Watched`). So a fall that is due has an
interrupt waiting for it, and one that is not due raises the compare flag when it is
(`wake_up_pending`). Stops that give up waiting are no exception.

The reason is that settling looks at the clock again once the compare channel is armed. It ends
before the fall it has armed for, as far as the engine can tell by the turns it has counted and
by the counter. Every fall is due in the first turn of its period, so no turn was counted, and it
is the counter that is before the fall.
-/

namespace ServoPulse

namespace Engine

variable {P : Type} {p : Profile} {e e' : Engine (Bench P)}

/-- The fall `f` is looked after by the timer: a flag is up, or the compare channel is armed for
the fall and the counter has yet to reach it. -/
def Watched (e : Engine (Bench P)) (f : Fall) : Prop :=
  e.clock.overflowPending = true ∨ e.clock.comparePending = true ∨
    e.wrap = 0 ∧ e.clock.compare = some f.compareValue ∧ e.clock.count < f.due

/-- Every pending fall comes in the first turn of its period, and the queue is in order. -/
structure Queued (e : Engine (Bench P)) : Prop where
  short : ∀ f ∈ e.queue.events, f.due ≤ maxTargetTicks
  sorted : e.queue.events.Pairwise (· ≤ ·)

/-- The timer of an engine that runs looks after the earliest pending fall, and that of an
engine that does not run stands still. -/
structure Awake (e : Engine (Bench P)) : Prop where
  queued : Queued e
  running_eq : e.clock.running = e.started
  halted_iff : e.phase = .halted ↔ e.started = false
  empty_of_stopped : e.started = false → e.queue.events = []
  armed_iff : e.clock.compare.isSome = true ↔ e.queue.events ≠ []
  watched : ∀ f ∈ e.queue.peek?, Watched e f

/-- An engine that runs, in the middle of an interrupt. -/
structure Busy (e : Engine (Bench P)) : Prop where
  queued : Queued e
  started : e.started = true
  running : e.clock.running = true
  not_halted : e.phase ≠ .halted

namespace Busy

/-- The timer may be anything that runs. -/
theorem of_clock (h : Busy e) {clock : Clock} (h_run : clock.running = true) (wrap : Nat) :
    Busy { e.withClock clock with wrap } where
  queued := ⟨h.queued.short, h.queued.sorted⟩
  started := h.started
  running := h_run
  not_halted := h.not_halted

variable [PinBank P]

theorem settleStable : SettleStable (Busy (P := P)) where
  lower {e e' f rest} h h_queue _ _ h_run := by
    obtain ⟨pins, -, rfl⟩ := run_lower_eq_ok_iff.1 h_run
    obtain ⟨h_short, h_sorted⟩ := h.queued
    rw [h_queue] at h_short h_sorted
    exact ⟨⟨fun g hg => h_short g (List.mem_cons_of_mem f hg), h_sorted.of_cons⟩, h.started,
      h.running, h.not_halted⟩
  arm {e f rest limit clock} h _ _ _ _ h_pass :=
    h.of_clock ((Clock.keeps_passUntil limit h_pass).running_eq.trans h.running) e.wrap

theorem turn (h : Busy e) (h_bounded : Bounded e) (h_run : Engine.turn.run p e = .ok () e') :
    Busy e' := by
  rcases run_turn_eq_ok h_run with ⟨-, rfl⟩ | ⟨-, h_begin⟩
  · exact h.of_clock h.running _
  -- the falls of a new period are as wide as its channels
  obtain ⟨low, high, -, -, rfl⟩ := run_beginPeriod_eq_ok h_begin
  refine ⟨⟨fun f hf => ?_, FallQueue.pairwise_insertAll .nil⟩, h.started, h.running, ?_⟩
  · have h_perm := FallQueue.perm_insertAll e.table.step.falls []
    rw [List.append_nil] at h_perm
    exact h_bounded.falls_short f (h_perm.mem_iff.1 hf)
  · -- the new period emits its pulses or is idle, so the engine is not halted
    change (if _ then Phase.idle else Phase.emitting) ≠ .halted
    split <;> exact nofun

/-- **Settling.** It ends with the earliest of the falls that are left looked after. -/
theorem fallDue (h : Busy e) (h_run : Engine.fallDue.run .debug e = .ok () e') : Awake e' := by
  obtain ⟨t, h_t, h_end⟩ := settled_of_run_fallDue settleStable h h_run
  -- settling leaves the engine started, with its timer running
  have h_off : ¬t.started = false := by simp [h_t.started]
  have h_halted : t.phase = .halted ↔ t.started = false :=
    ⟨fun h_phase => absurd h_phase h_t.not_halted, fun h_stopped => absurd h_stopped h_off⟩
  have h_running : t.clock.running = t.started := h_t.running.trans h_t.started.symm
  -- a fall that is still ahead comes in the turn that is on now
  have h_first {f : Fall} {rest : List Fall} (h_queue : t.queue.events = f :: rest)
      (h_due : t.seen < f.due) : f.wrap = 0 ∧ t.wrap = 0 ∧ t.clock.count < f.due := by
    have h_short := h_t.queued.short f (h_queue ▸ List.mem_cons_self)
    have h_turn := Fall.due_lt_ticksPerWrap h_short
    rw [seen_of_running h_t.running] at h_due
    simp only [ticksPerWrap] at h_due h_turn
    exact ⟨Fall.wrap_eq_zero h_short, by omega, by omega⟩
  cases h_end with
  | empty h_queue =>
    -- nothing is pending and nothing is armed
    refine ⟨⟨h_t.queued.short, h_t.queued.sorted⟩, h_running, ?_, fun _ => h_queue, ?_, ?_⟩
    · exact ⟨Phase.noConfusion, fun h_stopped => absurd h_stopped h_off⟩
    · change false = true ↔ t.queue.events ≠ []
      simp [h_queue]
    · change ∀ f ∈ t.queue.events.head?, _
      rw [h_queue]
      exact fun f hf => absurd hf (Option.not_mem_none f)
  | later h_queue h_due h_wrap =>
    -- this cannot be, as a fall that is ahead is of the turn that is on
    obtain ⟨h_zero, h_now, -⟩ := h_first h_queue h_due
    exact absurd (h_zero.trans h_now.symm) h_wrap
  | @armed f rest h_queue h_due h_wrap h_compare =>
    -- the next fall is of this turn, and the channel is armed for it
    obtain ⟨-, h_now, h_count⟩ := h_first h_queue h_due
    refine ⟨h_t.queued, h_running, h_halted, fun h_stopped => absurd h_stopped h_off, ?_, ?_⟩
    · simp [h_compare, h_queue]
    · intro g hg
      rw [FallQueue.peek?, h_queue] at hg
      obtain rfl : f = g := Option.some.inj hg
      exact .inr (.inr ⟨h_now, h_compare, h_count⟩)

end Busy

namespace Awake

theorem initial (config : Config) (lag now : Nat) (pins : P) :
    Awake (fresh config lag now pins) where
  queued := ⟨nofun, .nil⟩
  running_eq := rfl
  halted_iff := ⟨fun _ => rfl, fun _ => rfl⟩
  empty_of_stopped _ := rfl
  armed_iff := by simp [fresh, clock]
  watched := nofun

/-- The pins and the channels do not matter. -/
theorem of_same (h : Awake e) (h_clock : e'.clock = e.clock) (h_queue : e'.queue = e.queue)
    (h_wrap : e'.wrap = e.wrap) (h_phase : e'.phase = e.phase)
    (h_started : e'.started = e.started) : Awake e' where
  queued := ⟨h_queue ▸ h.queued.short, h_queue ▸ h.queued.sorted⟩
  running_eq := by rw [h_clock, h_started]; exact h.running_eq
  halted_iff := by rw [h_phase, h_started]; exact h.halted_iff
  empty_of_stopped := by rw [h_started, h_queue]; exact h.empty_of_stopped
  armed_iff := by rw [h_clock, h_queue]; exact h.armed_iff
  watched := by
    unfold Watched
    rw [h_clock, h_queue, h_wrap]
    exact h.watched

section Earliest

variable {f : Fall} (h : Awake e) (hf : f ∈ e.queue.peek?)

include h hf

theorem started_of_pending : e.started = true := by
  by_contra h_off
  have h_mem := List.mem_of_mem_head? hf
  rw [h.empty_of_stopped (Bool.eq_false_iff.2 h_off)] at h_mem
  exact absurd h_mem List.not_mem_nil

theorem running_of_pending : e.clock.running = true :=
  h.running_eq.trans (h.started_of_pending hf)

theorem hasPending_or_armed : e.clock.hasPending = true ∨
    e.wrap = 0 ∧ e.clock.compare = some f.compareValue ∧ e.clock.count < f.due := by
  rw [Clock.hasPending, Bool.or_eq_true, or_assoc]
  exact h.watched f hf

/-- No fall is due before the first one on the queue. -/
theorem due_le : ∀ g ∈ e.queue.events, f.due ≤ g.due := by
  intro g hg
  obtain ⟨rest, h_queue⟩ := List.head?_eq_some_iff.1 hf
  have h_sorted := h.queued.sorted
  rw [h_queue] at h_sorted hg
  exact FallQueue.first_due_le h_sorted hg

/-- A fall that is due is not waited for: a flag is up. -/
theorem hasPending_of_due (h_due : f.due ≤ e.seen) : e.clock.hasPending = true := by
  by_contra h_none
  obtain ⟨h_wrap, -, h_count⟩ := (h.hasPending_or_armed hf).resolve_left h_none
  rw [seen, shown, h_wrap, if_pos (h.running_of_pending hf)] at h_due
  omega

/-- With no flag up, time that passes until the fall is due comes to the match right then. -/
theorem match_of_advanceUntil (h_none : e.clock.hasPending = false) {limit : Nat} {event : Bool}
    {clock : Clock} (h_run : (Clock.advanceUntil limit).run .debug e.clock = .ok event clock)
    (h_limit : e.clock.now + (f.due - e.clock.count) ≤ limit) :
    event = true ∧ clock.now = e.clock.now + (f.due - e.clock.count) ∧
      clock.comparePending = true := by
  have h_value := Fall.val_compareValue (h.queued.short f (List.mem_of_mem_head? hf))
  obtain ⟨-, h_armed, h_count⟩ := (h.hasPending_or_armed hf).resolve_left (by simp [h_none])
  -- the channel is armed for the first fall, and so the event is its match
  rw [← h_value] at h_count h_limit ⊢
  obtain ⟨-, h_reach⟩ := Clock.run_advanceUntil_debug_iff.1 h_run
  rw [Clock.reach_of_ahead (h.running_of_pending hf) h_armed h_count h_limit] at h_reach
  obtain ⟨rfl, rfl⟩ := Prod.mk.inj h_reach
  exact ⟨rfl, rfl, rfl⟩

/-- Time that passes leaves the first fall looked after. -/
theorem watched_of_reach {limit : Nat} (h_origin : e.clock.origin ≤ e.clock.now)
    (h_fits : e.clock.Fits) : Watched (e.withClock (e.clock.reach limit).2) f := by
  -- the jump keeps what is armed and lowers no flag
  have h_passes := Clock.passes_reach h_fits limit
  have h_value := Fall.val_compareValue (h.queued.short f (List.mem_of_mem_head? hf))
  rcases h.watched f hf with h_flag | h_flag | ⟨h_wrap, h_compare, h_count⟩
  · exact .inl (h_passes.overflow_iff.2 (.inl h_flag))
  · refine .inr (.inl ?_)
    change (e.clock.reach limit).2.comparePending = true
    rw [Clock.reach]
    split <;> simp [h_flag]
  -- the compare match is the next event: it comes, or the counter is still before it
  have h_ahead : e.clock.count < f.compareValue.val := h_value.symm ▸ h_count
  by_cases h_limit : e.clock.now + (f.compareValue.val - e.clock.count) ≤ limit
  · refine .inr (.inl ?_)
    change (e.clock.reach limit).2.comparePending = true
    rw [Clock.reach_of_ahead (h.running_of_pending hf) h_compare h_ahead h_limit]
  · have h_before := Clock.count_reach_lt h_origin h_compare h_ahead (Nat.lt_of_not_le h_limit)
    exact .inr (.inr ⟨h_wrap, h_passes.compare_eq.trans h_compare, h_value ▸ h_before⟩)

end Earliest

/-- A timer that is looking after a fall goes on doing so as time passes. -/
theorem advance {limit : Nat} (h : Awake e) (h_origin : e.clock.origin ≤ e.clock.now)
    (h_fits : e.clock.Fits) : Awake (e.withClock (e.clock.reach limit).2) := by
  have h_passes := Clock.passes_reach h_fits limit
  refine ⟨⟨h.queued.short, h.queued.sorted⟩, h_passes.running_eq.trans h.running_eq, h.halted_iff,
    h.empty_of_stopped, ?_, fun f hf => h.watched_of_reach hf h_origin h_fits⟩
  change (e.clock.reach limit).2.compare.isSome = true ↔ _
  rw [h_passes.compare_eq]
  exact h.armed_iff

variable [PinBank P]

theorem interrupt (h : Awake e) (h_bounded : Bounded e)
    (h_run : Engine.interrupt.run .debug e = .ok () e') : Awake e' := by
  -- an engine that is not halted has been started, so the interrupt finds it busy
  have h_busy (h_phase : e.phase ≠ .halted) : Busy e.quiet := by
    have h_on : e.started = true := Bool.ne_false_iff.1 (mt h.halted_iff.2 h_phase)
    exact ⟨⟨h.queued.short, h.queued.sorted⟩, h_on, h.running_eq.trans h_on, h_phase⟩
  rcases run_interrupt_eq_ok h_run with ⟨h_idle, rfl⟩ | ⟨h_phase, -, h_fall⟩ |
    ⟨h_phase, -, t, h_turn, h_fall⟩
  · refine ⟨⟨h.queued.short, h.queued.sorted⟩, h.running_eq, h.halted_iff, h.empty_of_stopped,
      h.armed_iff, fun f hf => ?_⟩
    rcases h_idle with h_halted | h_flags
    · -- a halted engine has no fall to look after
      have h_off := h.halted_iff.1 h_halted
      exact Bool.noConfusion (h_off.symm.trans (h.started_of_pending hf))
    · -- no flag was up, so it is the compare channel that looks after the fall
      exact .inr (.inr ((h.hasPending_or_armed hf).resolve_left (Bool.eq_false_iff.1 h_flags)))
  · -- a compare match: the falls that are due are lowered
    exact (h_busy h_phase).fallDue h_fall
  · -- an overflow: the turn is counted first
    have h_quiet : Bounded e.quiet := ⟨h_bounded.origin_le, h_bounded.widths⟩
    exact ((h_busy h_phase).turn h_quiet h_turn).fallDue h_fall

theorem stableUnder {cuts : Bool} : StableUnder p cuts (Bounded (P := P)) Awake where
  advance {e limit event clock} h_bounded h h_run := by
    obtain ⟨h_fits, h_reach⟩ := Clock.run_advanceUntil_debug_iff.1 h_run
    have h_next : Awake (e.withClock (e.clock.reach limit).2) :=
      h.advance h_bounded.origin_le h_fits
    rwa [h_reach] at h_next
  interrupt h_bounded h h_run := h.interrupt h_bounded h_run
  relist {e e'} _ h h_list := by
    cases h_list with
    | resume moving => exact h.of_same rfl rfl rfl rfl rfl
    | list => exact h.of_same rfl rfl rfl rfl rfl
  -- nothing is pending after a launch, nor after a shutdown
  launch {e starts} _ h _ :=
    ⟨⟨nofun, .nil⟩, rfl, ⟨nofun, nofun⟩, fun _ => rfl, ⟨nofun, fun h_some => absurd rfl h_some⟩,
      nofun⟩
  command _ h := h.of_same rfl rfl rfl rfl rfl
  shutDown {e e'} _ h _ h_run := by
    obtain ⟨pins, -, rfl⟩ := run_shutDown_eq_ok h_run
    exact ⟨⟨nofun, .nil⟩, rfl, ⟨fun _ => rfl, fun _ => rfl⟩, fun _ => rfl,
      ⟨nofun, fun h_some => absurd rfl h_some⟩, nofun⟩

/-- **Awake engines.** Every step of a run keeps the earliest pending fall looked after, also a
stop that gives up waiting. -/
theorem stable [LawfulPinBank P] (cuts : Bool) :
    Stable p cuts fun e : Engine (Bench P) => (Prepared e ∧ Bounded e) ∧ Awake e := by
  have h_bounded : Stable p cuts fun e : Engine (Bench P) => Prepared e ∧ Bounded e :=
    (Prepared.stable cuts).and Bounded.stableUnder
  exact h_bounded.and (stableUnder.mono fun e h => h.2)

end Awake

section Recorded

variable {config : Config} {lag now : Nat} {e : Engine (Bench PinRecorder)}

/-- **No wake-up is lost.** In every state of every run the timer runs exactly if the engine is
started, and the compare channel is armed exactly if a fall is pending. For the earliest pending
fall a flag is up, or no turn of its period has been counted, the value armed is its offset, and
the counter is below it. So a fall that is due has a flag up. And with no flag up the next event
of the timer is the match of the fall: time that passes until the fall is due raises the compare
flag right then. -/
theorem wake_up_pending (h : Steps p true (freshRecorded config lag now) e) :
    (e.clock.running = true ↔ e.started = true) ∧
      (e.clock.compare.isSome = true ↔ e.queue.events ≠ []) ∧
      ∀ f ∈ e.queue.peek?, (∀ g ∈ e.queue.events, f.due ≤ g.due) ∧
        (e.clock.hasPending = true ∨
          e.wrap = 0 ∧ (∃ v, e.clock.compare = some v ∧ v.val = f.due) ∧ e.clock.count < f.due) ∧
        (f.due ≤ e.seen → e.clock.hasPending = true) ∧
        (e.clock.hasPending = false → ∀ limit event clock,
          (Clock.advanceUntil limit).run .debug e.clock = .ok event clock →
          e.clock.now + (f.due - e.clock.count) ≤ limit →
            event = true ∧ clock.now = e.clock.now + (f.due - e.clock.count) ∧
              clock.comparePending = true) := by
  obtain ⟨-, h_awake⟩ := (Awake.stable true).steps
    ⟨⟨.initial config lag now _, .initial config lag now _⟩, .initial config lag now _⟩ h
  refine ⟨by rw [h_awake.running_eq], h_awake.armed_iff, fun f hf => ?_⟩
  refine ⟨h_awake.due_le hf, ?_, h_awake.hasPending_of_due hf, fun h_none _ _ _ =>
    h_awake.match_of_advanceUntil hf h_none⟩
  -- either a flag is up or the channel is armed for the first fall
  rcases h_awake.hasPending_or_armed hf with h_flag | ⟨h_wrap, h_armed, h_count⟩
  · exact .inl h_flag
  · have h_short := h_awake.queued.short f (List.mem_of_mem_head? hf)
    exact .inr ⟨h_wrap, ⟨_, h_armed, Fall.val_compareValue h_short⟩, h_count⟩

end Recorded

/-- A run on a board that takes 70000 ticks to arm the compare channel, more than a turn of the
counter. -/
def slowRun : Option (Engine (Bench PinRecorder)) :=
  replay? .debug
    [.start (some [2]), .command (.targetTicks 0 36000), .advance 65536, .interrupt]
    (freshRecorded { wrapsPerPeriod := 1 } 70000 0)

theorem isSome_slowRun : slowRun.isSome = true := by decide +kernel

theorem wake_up_pending_slowRun :
    ∃ e, Steps .debug true (freshRecorded { wrapsPerPeriod := 1 } 70000 0) e ∧
      e.queue.peek? = some ⟨36000, 0, 2⟩ ∧ e.clock.count = 4464 ∧
      (e.clock.hasPending = true ∨
        e.wrap = 0 ∧ (∃ v, e.clock.compare = some v ∧ v.val = 36000) ∧ e.clock.count < 36000) := by
  have h := steps_of_replay? (Option.some_get isSome_slowRun).symm true
  have h_first : (slowRun.get isSome_slowRun).queue.peek? = some ⟨36000, 0, 2⟩ := by decide +kernel
  refine ⟨_, h, h_first, ?_, ((wake_up_pending h).2.2 _ h_first).2.1⟩
  decide +kernel

end Engine

end ServoPulse
