import ServoPulse.Proofs.Outputs
import ServoPulse.Proofs.Replay

/-!
# High pins and pending falls

The pins that are high are the pins of the pending falls, in every state of a run in which
no stop gives up waiting, however late interrupts are served (`Tied`, `Orderly`). No two
pending falls share a pin, so lowering one of them takes its pin off both sides. A new list
of pins leaves both sides alone, and so the pending falls may name pins that are not
configured any more.

An engine is halted when it is not started, emitting while a fall is pending, and idle
otherwise (`duePhase`).
-/

namespace ServoPulse

theorem ChannelTable.map_pin_falls_sublist (t : ChannelTable) :
    (t.falls.map Fall.pin).Sublist (t.active.map Channel.pin) := by
  -- by induction on the channels, whatever number the first of them has
  have h_sublist (channels : List Channel) (n : Nat) :
      ((fallsOf (channels.zipIdx n)).map Fall.pin).Sublist (channels.map Channel.pin) := by
    induction channels generalizing n with
    | nil => exact .slnil
    | cons c channels ih =>
      rw [List.zipIdx_cons, List.map_cons]
      by_cases h_zero : c.position ≠ 0
      · have h_some : c.fall? n = some ⟨c.position, n, c.pin⟩ := if_pos h_zero
        rw [fallsOf_cons_some h_some]
        exact (ih (n + 1)).cons_cons c.pin
      · -- a position of zero makes no pulse
        have h_none : c.fall? n = none := if_neg h_zero
        rw [fallsOf_cons_none h_none]
        exact (ih (n + 1)).cons c.pin
  exact h_sublist t.active 0

namespace Engine

variable {P : Type} [PinBank P] {p : Profile} {e e' : Engine (Bench P)}

/-- The phase that an engine should be in. -/
def duePhase (e : Engine (Bench P)) : Phase :=
  if e.started = false then .halted else if e.queue.events = [] then .idle else .emitting

variable [LawfulPinBank P]

open LawfulPinBank

/-- The pins that are high are tied to the pending falls. -/
structure Tied (e : Engine (Bench P)) : Prop where
  prepared : Prepared e
  high_iff : ∀ pin, PinBank.isHigh e.pins pin = true ↔ pin ∈ e.queue.events.map Fall.pin
  pending_nodup : (e.queue.events.map Fall.pin).Nodup
  pending_output : ∀ pin ∈ e.queue.events.map Fall.pin, isOutput e.pins pin
  channel_nodup : (e.table.active.map Channel.pin).Nodup
  faults_eq : faults e.pins = 0

namespace Tied

theorem of_same (h : Tied e) (h_prepared : Prepared e') (h_pins : e'.pins = e.pins)
    (h_queue : e'.queue = e.queue)
    (h_table : e'.table.active.map Channel.pin = e.table.active.map Channel.pin) : Tied e' where
  prepared := h_prepared
  high_iff := by
    rw [h_pins, h_queue]
    exact h.high_iff
  pending_nodup := by
    rw [h_queue]
    exact h.pending_nodup
  pending_output := by
    rw [h_pins, h_queue]
    exact h.pending_output
  channel_nodup := by
    rw [h_table]
    exact h.channel_nodup
  faults_eq := by
    rw [h_pins]
    exact h.faults_eq

/-- Neither the clock nor the count of turns nor the phase matters. -/
theorem of_time (h : Tied e) (clock : Clock) (wrap : Nat) (phase : Phase) :
    Tied { e.withClock clock with wrap, phase } :=
  h.of_same ⟨h.prepared.valid, h.prepared.output⟩ rfl rfl rfl

/-- With no fall pending every pin is low. -/
theorem low (h : Tied e) (h_queue : e.queue.events = []) (pin : Nat) :
    PinBank.isHigh e.pins pin = false := by
  rw [Bool.eq_false_iff, ne_eq, h.high_iff, h_queue]
  exact List.not_mem_nil

theorem lower (h : Tied e) {f : Fall} {rest : List Fall} (h_queue : e.queue.events = f :: rest)
    (h_run : (Engine.lower f rest).run .debug e = .ok () e') : Tied e' := by
  obtain ⟨pins, h_pins, rfl⟩ := run_lower_eq_ok_iff.1 h_run
  have h_nodup := h.pending_nodup
  have h_high := h.high_iff
  have h_output := h.pending_output
  rw [h_queue, List.map_cons] at h_nodup h_output
  simp only [h_queue, List.map_cons, List.mem_cons] at h_high
  obtain ⟨h_not, h_nodup⟩ := List.nodup_cons.1 h_nodup
  have h_f : isOutput e.pins f.pin := h_output f.pin (by simp)
  -- pending are now the pins of the other falls, and the pin of this one is low
  refine ⟨h.prepared.of_frame rfl rfl rfl fun x => (isOutput_drive h_pins x).2, fun pin => ?_,
    h_nodup, fun pin h_pin => (isOutput_drive h_pins pin).2 (h_output pin (by simp [h_pin])),
    h.channel_nodup, (faults_drive h_f (by nofun) h_pins).trans h.faults_eq⟩
  change PinBank.isHigh pins pin = true ↔ pin ∈ rest.map Fall.pin
  rw [isHigh_drive h_f h_pins pin]
  by_cases h_eq : pin = f.pin
  · -- no other fall is pending for the pin
    simp [h_eq, h_not]
  · rw [if_neg h_eq, h_high pin, or_iff_right h_eq]

/-- A period begins with every pin low again, and each fall put on the queue has its pin
raised. -/
theorem beginPeriod (h : Tied e) (h_run : Engine.beginPeriod.run p e = .ok () e') :
    Tied e' ∧ e'.queue.events.Perm e'.table.falls := by
  have h_prepared := h.prepared.beginPeriod h_run
  obtain ⟨low, high, h_low, h_high, rfl⟩ := run_beginPeriod_eq_ok h_run
  have h_perm : (FallQueue.insertAll e.table.step.falls []).Perm e.table.step.falls := by
    simpa using FallQueue.perm_insertAll e.table.step.falls []
  have h_channels := e.table.map_pin_step
  have h_sublist := e.table.step.map_pin_falls_sublist
  rw [h_channels] at h_sublist
  have h_nodup := h_sublist.nodup h.channel_nodup
  -- the left-over falls leave every pin low, for only pins with a pending fall are high
  have h_all_low (pin : Nat) : PinBank.isHigh low pin = false := by
    rw [PinBank.driveAll_isHigh h.pending_output h_low pin]
    split
    · rfl
    · rename_i h_not
      rwa [Bool.eq_false_iff, ne_eq, h.high_iff]
  -- and so the rises that follow are rises of low outputs
  have h_out_low : ∀ pin ∈ e.table.step.falls.map Fall.pin, isOutput low pin :=
    fun pin h_pin => (PinBank.driveAll_isOutput h_low pin).2
      (h.prepared.output pin (h_sublist.subset h_pin))
  refine ⟨⟨h_prepared, fun pin => ?_, (h_perm.map Fall.pin).nodup_iff.2 h_nodup,
    fun pin h_pin => ?_, ?_, ?_⟩, h_perm⟩
  · -- the pins that rise become high, and every other one was lowered
    change PinBank.isHigh high pin = true ↔ _
    rw [PinBank.driveAll_isHigh h_out_low h_high pin, h_all_low, (h_perm.map Fall.pin).mem_iff]
    simp
  · -- a pending pin was raised, and so it is an output
    rw [(h_perm.map Fall.pin).mem_iff] at h_pin
    exact (PinBank.driveAll_isOutput h_high pin).2 (h_out_low pin h_pin)
  · change (e.table.step.active.map Channel.pin).Nodup
    rw [h_channels]
    exact h.channel_nodup
  · -- the fall of an output is no fault, nor is the rise of a low one
    refine (PinBank.driveAll_faults h_out_low (fun _ => h_nodup) (fun _ pin _ => h_all_low pin)
      h_high).trans ?_
    exact (PinBank.driveAll_faults h.pending_output (by nofun) (by nofun) h_low).trans h.faults_eq

/-- A new list of pins changes no level, and so no pending fall loses its pin. -/
theorem relist (h : Tied e) (h_list : Relisted e e') : Tied e' := by
  have h_prepared := h.prepared.relist h_list
  cases h_list with
  | resume moving => exact h.of_same h_prepared rfl rfl rfl
  | @list pins h_length h_nodup h_eligible =>
    obtain ⟨h_levels, h_outputs, -, h_faults⟩ := PinBank.prepareAll_levels h_eligible
    -- making pins outputs leaves all levels, so the high ones are those that were high
    refine ⟨h_prepared, fun pin => ?_, h.pending_nodup, fun pin h_pin => ?_, ?_,
      h_faults.trans h.faults_eq⟩
    · exact (congrArg (· = true) (h_levels pin)).to_iff.trans (h.high_iff pin)
    · exact (h_outputs pin).2 (.inr (h.pending_output pin h_pin))
    · change ((ChannelTable.assign pins).active.map Channel.pin).Nodup
      rwa [ChannelTable.map_pin_assign h_length]

/-- Shutting down where no fall is pending. -/
theorem shutDown (h : Tied e) (h_queue : e.queue.events = [])
    (h_run : Engine.shutDown.run p e = .ok () e') : Tied e' := by
  have h_prepared := (Prepared.stable true).shutDown h.prepared (fun _ => rfl) h_run
  obtain ⟨pins, h_pins, rfl⟩ := run_shutDown_eq_ok h_run
  -- with nothing pending all pins were low, and lowering leaves them low
  refine ⟨h_prepared, fun pin => ?_, .nil, nofun, h.channel_nodup,
    (PinBank.driveAll_faults h.prepared.output (by nofun) (by nofun) h_pins).trans h.faults_eq⟩
  change PinBank.isHigh pins pin = true ↔ pin ∈ []
  rw [PinBank.driveAll_isHigh h.prepared.output h_pins, h.low h_queue]
  simp

end Tied

/-! ### The phase -/

/-- High pins tied to the pending falls, with the phase to match. -/
structure Orderly (e : Engine (Bench P)) : Prop where
  tied : Tied e
  phase_eq : e.phase = e.duePhase
  empty_of_stopped : e.started = false → e.queue.events = []

/-- An orderly engine in the middle of an interrupt, where lowering a pin may have emptied
the queue. -/
structure Serving (e : Engine (Bench P)) : Prop where
  tied : Tied e
  started : e.started = true
  phase_eq : e.phase = .emitting ∨ e.phase = .idle ∧ e.queue.events = []

namespace Serving

theorem settleStable : SettleStable (Serving (P := P)) where
  lower {e e' f rest} h h_queue _ _ h_run := by
    have h_tied := h.tied.lower h_queue h_run
    obtain ⟨pins, -, rfl⟩ := run_lower_eq_ok_iff.1 h_run
    -- the phase was not idle, as this fall was in the queue
    refine ⟨h_tied, h.started, .inl (h.phase_eq.resolve_right fun h_idle => ?_)⟩
    rw [h_queue] at h_idle
    exact absurd h_idle.2 (List.cons_ne_nil f rest)
  arm h _ _ _ _ _ :=
    ⟨h.tied.of_time _ _ _, h.started, h.phase_eq⟩

theorem orderly (h : Serving e) (h_tied : Tied e') (h_started : e'.started = e.started)
    (h_queue : e'.queue = e.queue)
    (h_phase : e'.phase = e.phase ∧ e.queue.events ≠ [] ∨ e'.phase = .idle ∧ e.queue.events = []) :
    Orderly e' := by
  have h_on := h_started.trans h.started
  refine ⟨h_tied, ?_, fun h_off => absurd (h_on.symm.trans h_off) nofun⟩
  rw [duePhase, if_neg (by simp [h_on]), h_queue]
  rcases h_phase with ⟨h_same, h_some⟩ | ⟨h_idle, h_none⟩
  · -- falls are left, and so the engine is still emitting
    rw [if_neg h_some, h_same]
    exact h.phase_eq.resolve_right fun h_idle => h_some h_idle.2
  · -- the last fall was carried out, and the phase has become idle
    rw [if_pos h_none, h_idle]

theorem fallDue (h : Serving e) (h_run : Engine.fallDue.run .debug e = .ok () e') :
    Orderly e' := by
  obtain ⟨e₁, h₁, h_end⟩ := settled_of_run_fallDue settleStable h h_run
  have h_tied := h₁.tied
  cases h_end with
  | empty h_queue =>
    exact h₁.orderly (h_tied.of_time _ _ _) rfl rfl
      (.inr ⟨rfl, h_queue⟩)
  | later h_queue =>
    exact h₁.orderly (h_tied.of_time _ _ _) rfl rfl
      (.inl ⟨rfl, by rw [h_queue]; exact List.cons_ne_nil _ _⟩)
  | armed h_queue =>
    exact h₁.orderly h_tied rfl rfl (.inl ⟨rfl, by rw [h_queue]; exact List.cons_ne_nil _ _⟩)

theorem turn (h : Serving e) (h_run : Engine.turn.run p e = .ok () e') : Serving e' := by
  rcases run_turn_eq_ok h_run with ⟨-, rfl⟩ | ⟨-, h_begin⟩
  · -- inside a period the turn only counts
    exact ⟨h.tied.of_time _ _ _, h.started, h.phase_eq⟩
  · have h_zero : Tied { e with wrap := 0 } := h.tied.of_time _ _ _
    have h_tied := (h_zero.beginPeriod h_begin).1
    obtain ⟨low, high, -, -, rfl⟩ := run_beginPeriod_eq_ok h_begin
    refine ⟨h_tied, h.started, ?_⟩
    -- a period without falls is idle from the start
    cases h_empty : (FallQueue.insertAll e.table.step.falls []).isEmpty with
    | true => exact .inr ⟨rfl, List.isEmpty_iff.1 h_empty⟩
    | false => exact .inl rfl

end Serving

namespace Orderly

theorem initial {pins : P} (h_low : ∀ pin, PinBank.isHigh pins pin = false)
    (h_faults : faults pins = 0) (config : Config) (lag now : Nat) :
    Orderly (fresh config lag now pins) where
  tied := by
    refine ⟨.initial config lag now pins, fun pin => ?_, .nil, nofun, ?_, h_faults⟩
    · change PinBank.isHigh pins pin = true ↔ pin ∈ []
      rw [h_low]
      simp
    · change ((List.take 0 _).map Channel.pin).Nodup
      exact List.nodup_nil
  phase_eq := rfl
  empty_of_stopped _ := rfl

theorem halted_iff (h : Orderly e) : e.phase = .halted ↔ e.started = false := by
  rw [h.phase_eq, duePhase]
  split
  · simp [*]
  · split <;> simp [*]

theorem emitting_iff (h : Orderly e) :
    e.phase = .emitting ↔ e.started = true ∧ e.queue.events ≠ [] := by
  rw [h.phase_eq, duePhase]
  split
  · simp [*]
  · split <;> simp_all

theorem idle_iff (h : Orderly e) :
    e.phase = .idle ↔ e.started = true ∧ e.queue.events = [] := by
  rw [h.phase_eq, duePhase]
  split
  · simp [*]
  · split <;> simp_all

theorem serving (h : Orderly e) (h_started : e.started = true) : Serving e := by
  refine ⟨h.tied, h_started, ?_⟩
  by_cases h_queue : e.queue.events = []
  · exact .inr ⟨by rw [h.phase_eq, duePhase, if_neg (by simp [h_started]), if_pos h_queue], h_queue⟩
  · exact .inl (h.emitting_iff.2 ⟨h_started, h_queue⟩)

/-- What changes neither the pins nor the queue keeps an engine orderly. -/
theorem of_same (h : Orderly e) (h_prepared : Prepared e') (h_pins : e'.pins = e.pins)
    (h_queue : e'.queue = e.queue)
    (h_table : e'.table.active.map Channel.pin = e.table.active.map Channel.pin)
    (h_started : e'.started = e.started) (h_phase : e'.phase = e.phase) : Orderly e' where
  tied := h.tied.of_same h_prepared h_pins h_queue h_table
  phase_eq := by
    rw [h_phase, duePhase, h_started, h_queue]
    exact h.phase_eq
  empty_of_stopped := by
    rw [h_started, h_queue]
    exact h.empty_of_stopped

theorem interrupt (h : Orderly e) (h_run : Engine.interrupt.run .debug e = .ok () e') :
    Orderly e' := by
  have h_prepared := h.tied.prepared
  have h_quiet : Orderly e.quiet :=
    h.of_same ⟨h_prepared.valid, h_prepared.output⟩ rfl rfl rfl rfl rfl
  -- an engine that is not halted has been started
  have h_serving (h_phase : e.phase ≠ .halted) : Serving e.quiet :=
    h_quiet.serving (Bool.ne_false_iff.1 (mt h.halted_iff.2 h_phase))
  rcases run_interrupt_eq_ok h_run with ⟨-, rfl⟩ | ⟨h_phase, -, h_fall⟩ |
    ⟨h_phase, -, e₁, h_turn, h_fall⟩
  · -- the flags were taken and nothing else
    exact h_quiet
  · exact (h_serving h_phase).fallDue h_fall
  · exact ((h_serving h_phase).turn h_turn).fallDue h_fall

/-- **Orderly engines.** Every step of a run keeps an engine orderly, as long as no stop gives
up waiting. -/
theorem stable : Stable p false (Orderly (P := P)) where
  valid h := h.tied.prepared.valid
  advance h _ := h.of_same ⟨h.tied.prepared.valid, h.tied.prepared.output⟩ rfl rfl rfl rfl rfl
  interrupt := interrupt
  relist {e e'} h h_list := by
    have h_tied := h.tied.relist h_list
    cases h_list <;> exact ⟨h_tied, h.phase_eq, h.empty_of_stopped⟩
  launch {e starts} h h_off h_valid := by
    -- the queue that a launch empties is empty already
    have h_queue := h.empty_of_stopped h_off
    refine ⟨h.tied.of_same ⟨fun _ => h_valid, h.tied.prepared.output⟩ rfl ?_ rfl, rfl, nofun⟩
    change {} = e.queue
    rw [← h_queue]
  command {e moving k} h := by
    have h_table := e.table.map_pin_modify (n := k.servo) k.write_pin
    exact h.of_same (h.tied.prepared.of_frame rfl rfl h_table fun _ => id) rfl rfl h_table rfl rfl
  shutDown {e e'} h h_cuts h_run := by
    -- a stop that has waited long enough finds the queue empty
    have h_queue : e.queue.events = [] := by
      by_contra h_some
      exact absurd (h_cuts (by simp [pulseInFlight, FallQueue.isEmpty, h_some])) nofun
    have h_tied := h.tied.shutDown h_queue h_run
    obtain ⟨pins, -, rfl⟩ := run_shutDown_eq_ok h_run
    exact ⟨h_tied, rfl, fun _ => rfl⟩

end Orderly

/-! ### Recorded pins -/

section Recorded

variable {config : Config} {lag now : Nat} {e : Engine (Bench PinRecorder)}

theorem orderly_of_steps (h : Steps p false (freshRecorded config lag now) e) :
    Orderly e :=
  Orderly.stable.steps (.initial PinRecorder.isHigh_new rfl config lag now) h

/-- **High pins are the pins with a pending fall.** In every state of every run in which no
stop gives up waiting: a pin is high exactly if a fall is pending for it, and no two pending
falls name one pin; the pins of the channels and of the pending falls are outputs, and
no pin was ever driven wrongly; the phase tells whether the engine is started and whether a
fall is pending. And if a period begins now, whatever the clock shows, each channel whose
position is not zero finds room on the queue for its fall and has its pin raised. -/
theorem high_iff_pending (h : Steps p false (freshRecorded config lag now) e) :
    (∀ pin, e.pins.isHigh pin = true ↔ ∃ f ∈ e.queue.events, f.pin = pin) ∧
      (e.queue.events.map Fall.pin).Nodup ∧
      (∀ c ∈ e.table.active, e.pins.isOutput c.pin = true) ∧
      (∀ f ∈ e.queue.events, e.pins.isOutput f.pin = true) ∧
      e.pins.violations = 0 ∧
      (e.phase = .halted ↔ e.started = false) ∧
      (e.phase = .emitting ↔ e.started = true ∧ e.queue.events ≠ []) ∧
      (e.phase = .idle ↔ e.started = true ∧ e.queue.events = []) ∧
      ∀ clock e', beginPeriod.run p { e.withClock clock with wrap := 0 } = .ok () e' →
        e'.table = e.table.step ∧ e'.queue.events.Perm e.table.step.falls ∧
          ∀ c ∈ e'.table.active, c.position ≠ 0 → e'.pins.isHigh c.pin = true := by
  have h_orderly := orderly_of_steps h
  have h_tied := h_orderly.tied
  have h_prepared := h_tied.prepared
  refine ⟨fun pin => (h_tied.high_iff pin).trans List.mem_map, h_tied.pending_nodup,
    fun c hc => ?_, fun f hf => ?_, h_tied.faults_eq, h_orderly.halted_iff,
    h_orderly.emitting_iff, h_orderly.idle_iff, fun clock e' h_run => ?_⟩
  · exact (h_prepared.output c.pin (List.mem_map_of_mem hc)).2
  · exact (h_tied.pending_output f.pin (List.mem_map_of_mem hf)).2
  · -- the clock does not matter to what a period start finds
    have h_now : Tied { e.withClock clock with wrap := 0 } := h_tied.of_time _ _ _
    obtain ⟨h_after, h_perm⟩ := h_now.beginPeriod h_run
    have h_table : e'.table = e.table.step := (periodBegun_of_run h_run).table_eq
    refine ⟨h_table, h_table ▸ h_perm, fun c hc h_zero => (h_after.high_iff c.pin).2 ?_⟩
    obtain ⟨f, hf, -, h_pin⟩ := ChannelTable.exists_fall hc h_zero
    exact h_pin ▸ List.mem_map_of_mem (h_perm.mem_iff.2 hf)

end Recorded

/-- A run that leaves pin 2 high while pin 3 is the one that is configured. -/
def relistedRun : Option (Engine (Bench PinRecorder)) :=
  replay? .debug
    [.start (some [2]), .command (.targetTicks 0 36000), .advance 65536, .interrupt,
      .start (some [3])]
    (freshRecorded { wrapsPerPeriod := 1 } 0 0)

theorem isSome_relistedRun : relistedRun.isSome = true := by decide +kernel

theorem high_iff_pending_relistedRun :
    ∃ e, Steps .debug false (freshRecorded { wrapsPerPeriod := 1 } 0 0) e ∧
      e.queue.events.map Fall.pin = [2] ∧ e.table.active.map Channel.pin = [3] ∧
      (e.pins.isHigh 2 = true ↔ ∃ f ∈ e.queue.events, f.pin = 2) := by
  have h := steps_of_replay? (Option.some_get isSome_relistedRun).symm false
  refine ⟨_, h, ?_, ?_, (high_iff_pending h).1 2⟩
  · decide +kernel
  · decide +kernel

end Engine

end ServoPulse
