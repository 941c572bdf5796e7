import ServoPulse.Proofs.Cadence
import ServoPulse.Proofs.CompleteStops
import ServoPulse.Proofs.Stopping

/-!
# Stops that wait no longer than they have to

Where the poll interval fits into the gap between the longest pulse and the end of a period, a stop
that serves every interrupt makes exactly the waits that it takes for the last pending fall to come
(`exact_stop`). The reason is that no period starts up to the look after that fall
(`OnTime.start_le_of_fits`), and so the pulses in flight at a look are those that were in flight
when the stop was called and are not over yet (`OnTime.pending_of_goesOn`). The timeout covers the
longest pulse, and so it does not cut the wait short.

For the same reason no pin rises, and the falls are the pending ones, each when it is due
(`OnTime.falls_of_goesOn`).
-/

namespace ServoPulse

namespace Config

variable {c : Config} {i ticks : Nat}

/-- The waits that it takes until `ticks` have passed. -/
def waitsFor (c : Config) (ticks : Nat) : Nat :=
  (ticks + ticksPerMicrosecond * c.stopPollUs.toNat - 1) /
    (ticksPerMicrosecond * c.stopPollUs.toNat)

theorem lt_waitsFor_iff (h_poll : 0 < c.stopPollUs.toNat) :
    i < c.waitsFor ticks ↔ c.lookAfter i < ticks := by
  have h_pos : 0 < ticksPerMicrosecond * c.stopPollUs.toNat := Nat.mul_pos (by decide) h_poll
  have h_look : c.lookAfter i = ticksPerMicrosecond * c.stopPollUs.toNat * i := by
    rw [lookAfter, Nat.mul_comm i, Nat.mul_assoc]
  rw [← Nat.not_le, ← Nat.not_le, h_look, waitsFor, Nat.div_le_iff_le_mul_add_pred h_pos]
  omega

end Config

namespace Engine

/-- The ticks until the last pending fall, as far as the engine can tell. -/
def lastFallIn {P : Type} (e : Engine (Bench P)) : Nat :=
  (e.queue.events.map fun f => f.due - e.seen).foldr max 0

theorem lt_lastFallIn_iff {P : Type} {e : Engine (Bench P)} {n : Nat} :
    n < e.lastFallIn ↔ ∃ f ∈ e.queue.events, n < f.due - e.seen := by
  rw [← Nat.not_le, lastFallIn, foldr_max_le_iff, List.forall_mem_map]
  simp only [not_forall, Nat.not_le, exists_prop]

/-- The change that a pending fall makes, if it is carried out when it is due. -/
def lowering {P : Type} (e : Engine (Bench P)) (f : Fall) : Edge :=
  .fall (e.clock.now + (f.due - e.seen)) f.pin

variable {P : Type} [PinBank P] [LawfulPinBank P] {wraps origin n : Nat}
  {late late₁ : Nat → Nat → Nat} {older older₁ : List (Engine (Bench (Scope P)))}
  {e e₁ : Engine (Bench (Scope P))}

/-! ### What goes on -/

theorem GoesOn.extends (h : GoesOn older e older₁ e₁) (h_orderly : Orderly e) : Extends e e₁ := by
  have h_stable : Stable .debug false fun t => Orderly t ∧ Extends e t :=
    Orderly.stable.and (extends_stableUnder e)
  suffices h_both : Orderly e₁ ∧ Extends e e₁ from h_both.2
  induction h with
  | refl => exact ⟨h_orderly, .of_eq (Nat.le_refl _) rfl⟩
  | next _ h_next ih => exact h_stable.serveNext ih h_next

/-- What was in force by now stays in the record. -/
theorem GoesOn.inForce_eq (h : GoesOn older e older₁ e₁) (h_orderly : Orderly e) {T : Nat}
    (h_T : T ≤ e.clock.now) : tableInForce (e₁ :: older₁) T = tableInForce (e :: older) T := by
  induction h with
  | refl => rfl
  | @next older' e' e'' limit event h h_next ih =>
    have h_now := (GoesOn.extends (.next h h_next) h_orderly).now_le
    exact ((renewed_tableInForce e'' (e' :: older')).old T (Nat.le_trans h_T h_now)).trans ih

namespace OnTime

/-- While a fall is pending, the engine sees how far its period has come. -/
theorem start_add_seen {inForce : Nat → ChannelTable} {k : Nat} {f : Fall}
    (h : OnTime wraps origin n late inForce e)
    (hf : f ∈ (inForce (periodStart wraps origin k)).step.falls)
    (h_le : periodStart wraps origin k ≤ e.clock.now)
    (h_lt : e.clock.now < periodStart wraps origin k + f.due) :
    periodStart wraps origin k + e.seen = e.clock.now := by
  obtain ⟨h_turns, h_count⟩ := h.pending_turn hf h_le h_lt
  have h_wrap : e.wrap = 0 := h.wrap_eq.trans (wrap_eq_zero h.steady.wraps_pos h_turns)
  rw [seen_of_running h.steady.running, h_wrap, Nat.zero_mul, Nat.zero_add, h_count]
  exact Nat.add_sub_of_le h_le

/-- A pending fall belongs to a period that has begun, and it is as far away as the engine sees. -/
theorem exists_start {inForce : Nat → ChannelTable} {f : Fall}
    (h : OnTime wraps origin n late inForce e) (hf : f ∈ e.queue.events) :
    ∃ k, f ∈ (inForce (periodStart wraps origin k)).step.falls ∧
      periodStart wraps origin k ≤ e.clock.now ∧ f.due ≤ maxTargetTicks ∧ e.seen < f.due ∧
        periodStart wraps origin k + f.due = e.clock.now + (f.due - e.seen) := by
  obtain ⟨k, h_f, h_le, h_lt⟩ := (h.timely.pending_iff f).1 hf
  have h_seen := h.start_add_seen h_f h_le h_lt
  exact ⟨k, h_f, h_le, h.timely.short _ f h_f, by omega, by omega⟩

/-- A pulse in flight has risen, and will be as wide as its fall says. -/
theorem whole {inForce : Nat → ChannelTable} {f : Fall}
    (h : OnTime wraps origin n late inForce e) (hf : f ∈ e.queue.events) :
    ∃ T, .rise T f.pin ∈ e.edges ∧ e.lowering f = .fall (T + f.due) f.pin := by
  obtain ⟨k, h_f, h_le, -, -, h_due⟩ := h.exists_start hf
  have h_rise : .rise (periodStart wraps origin k) f.pin ∈ e.edges.drop n :=
    (h.timely.edges_iff _).2 ⟨k, f, h_f, .inl ⟨rfl, h_le⟩⟩
  exact ⟨_, List.mem_of_mem_drop h_rise, by rw [lowering, h_due]⟩

/-- A pending fall was not carried out yet: the changes so far are stamped with the present time at
the latest. -/
theorem lowering_not_mem {inForce : Nat → ChannelTable} {f : Fall}
    (h : OnTime wraps origin n late inForce e) (hf : f ∈ e.queue.events) :
    e.lowering f ∉ e.edges.drop n := by
  intro h_old
  obtain ⟨k, -, -, -, h_ahead, -⟩ := h.exists_start hf
  obtain ⟨t, h_t, h_stamp, -⟩ := h.timely.stamp h_old
  obtain rfl := Option.some.inj h_t
  change e.clock.now + (f.due - e.seen) ≤ e.clock.now at h_stamp
  omega

theorem lastFallIn_le {inForce : Nat → ChannelTable} (h : OnTime wraps origin n late inForce e) :
    e.lastFallIn ≤ maxTargetTicks := by
  rw [lastFallIn, foldr_max_le_iff, List.forall_mem_map]
  intro f hf
  obtain ⟨k, -, -, h_short, -⟩ := h.exists_start hf
  exact Nat.le_trans (Nat.sub_le _ _) h_short

/-- **No new period.** Where a wait fits between the longest pulse and the end of a period, no
period starts before a wait that begins while a pulse is in flight is over. -/
theorem start_le_of_fits {inForce : Nat → ChannelTable} {k s poll : Nat} {f : Fall}
    (h : OnTime wraps origin n late inForce e)
    (h_fits : poll + maxTargetTicks ≤ wraps * ticksPerWrap) (hf : f ∈ e.queue.events)
    (h_s : s < e.clock.now + (f.due - e.seen) + poll) (h_start : periodStart wraps origin k ≤ s) :
    periodStart wraps origin k ≤ e.clock.now := by
  obtain ⟨l, -, h_begun, h_short, -, h_due⟩ := h.exists_start hf
  rcases Nat.lt_or_ge l k with h_lt | h_le
  · -- the period after the present one is further away
    have h_next : periodStart wraps origin (l + 1) ≤ periodStart wraps origin k :=
      periodStart_mono h_lt
    rw [periodStart_add, Nat.one_mul] at h_next
    omega
  · exact Nat.le_trans (periodStart_mono h_le) h_begun

/-- An engine on time is paced, if arming takes it no time. -/
theorem exists_paced {inForce : Nat → ChannelTable} (h : OnTime wraps origin n late inForce e)
    (h_lag : e.board.lag = 0) : ∃ m, Paced wraps origin m e := by
  refine ⟨(e.clock.turns + (wraps - 1)) / wraps, ?_⟩
  exact
    { lag_eq := h_lag
      wraps_eq := h.steady.wraps_eq
      started := h.steady.started
      not_halted := h.steady.not_halted
      running := h.steady.running
      origin_eq := h.steady.origin_eq
      origin_le := h.steady.origin_le
      overflow_flag := h.steady.overflow_flag
      wrap_lt := h.wrap_eq ▸ Nat.mod_lt _ h.steady.wraps_pos
      turns_eq := by
        rw [h.wrap_eq, Nat.mul_comm]
        exact (Nat.div_add_mod _ _).symm }

section Quiet

variable (h : OnTime wraps origin n late (tableInForce (e :: older)) e)
  (h₁ : OnTime wraps origin n late₁ (tableInForce (e₁ :: older₁)) e₁)
  (h_goes : GoesOn older e older₁ e₁)
  (h_quiet : ∀ k, periodStart wraps origin k ≤ e₁.clock.now →
    periodStart wraps origin k ≤ e.clock.now)

include h h₁ h_goes h_quiet

/-- Until a period starts, the pending falls are those that were pending and are not over yet. -/
theorem pending_of_goesOn (f : Fall) :
    f ∈ e₁.queue.events ↔
      f ∈ e.queue.events ∧ e₁.clock.now < e.clock.now + (f.due - e.seen) := by
  have h_orderly := h.steady.orderly
  have h_now := (h_goes.extends h_orderly).now_le
  constructor
  · -- what is pending then belongs to a period that began by the look at `e`
    intro hf
    obtain ⟨k, h_f, h_begun, h_lt⟩ := (h₁.timely.pending_iff f).1 hf
    have h_le := h_quiet k h_begun
    rw [h_goes.inForce_eq h_orderly h_le] at h_f
    have h_open : e.clock.now < periodStart wraps origin k + f.due := by omega
    have h_seen := h.start_add_seen h_f h_le h_open
    exact ⟨(h.timely.pending_iff f).2 ⟨k, h_f, h_le, h_open⟩, by omega⟩
  · -- a pending fall whose time has not come is still pending
    rintro ⟨hf, h_lt⟩
    obtain ⟨k, h_f, h_le, -, -, h_due⟩ := h.exists_start hf
    rw [← h_goes.inForce_eq h_orderly h_le] at h_f
    exact (h₁.timely.pending_iff f).2 ⟨k, h_f, Nat.le_trans h_le h_now, by omega⟩

/-- Until a period starts, the changes are those made before and the falls that were pending, once
they are over. -/
theorem mem_edges_of_goesOn (h_late : ∀ k servo, late k servo = 0)
    (h_late₁ : ∀ k servo, late₁ k servo = 0)
    (h_over : ∀ f ∈ e.queue.events, e.clock.now + (f.due - e.seen) ≤ e₁.clock.now) (x : Edge) :
    x ∈ e₁.edges.drop n ↔ x ∈ e.edges.drop n ∨ ∃ f ∈ e.queue.events, e.lowering f = x := by
  have h_orderly := h.steady.orderly
  have h_now := (h_goes.extends h_orderly).now_le
  rw [h₁.timely.edges_iff, h.timely.edges_iff]
  constructor
  · rintro ⟨k, f, hf, ⟨rfl, h_by⟩ | ⟨rfl, h_by⟩⟩
    · -- a rise starts a period, and that began before
      have h_le := h_quiet k h_by
      rw [h_goes.inForce_eq h_orderly h_le] at hf
      exact .inl ⟨k, f, hf, .inl ⟨rfl, h_le⟩⟩
    · -- a fall belongs to a period that began before as well
      have h_le := h_quiet k (Nat.le_trans (Nat.le_add_right _ _) h_by)
      rw [h_goes.inForce_eq h_orderly h_le] at hf
      rw [h_late₁, Nat.add_zero]
      by_cases h_old : periodStart wraps origin k + f.due ≤ e.clock.now
      · exact .inl ⟨k, f, hf, .inr ⟨by rw [h_late, Nat.add_zero], h_old⟩⟩
      · -- a fall that was not due then was pending
        have h_open := Nat.lt_of_not_le h_old
        have h_seen := h.start_add_seen hf h_le h_open
        refine .inr ⟨f, (h.timely.pending_iff f).2 ⟨k, hf, h_le, h_open⟩, ?_⟩
        rw [lowering, show e.clock.now + (f.due - e.seen) = periodStart wraps origin k + f.due by
          omega]
  · rintro (⟨k, f, hf, ⟨rfl, h_by⟩ | ⟨rfl, h_by⟩⟩ | ⟨f, hf, rfl⟩)
    · -- the changes made before stay
      rw [← h_goes.inForce_eq h_orderly h_by] at hf
      exact ⟨k, f, hf, .inl ⟨rfl, Nat.le_trans h_by h_now⟩⟩
    · have h_le := Nat.le_trans (Nat.le_add_right _ _) h_by
      rw [← h_goes.inForce_eq h_orderly h_le] at hf
      exact ⟨k, f, hf, .inr ⟨by rw [h_late, h_late₁], Nat.le_trans h_by h_now⟩⟩
    · -- and the pending falls have come due meanwhile
      obtain ⟨k, h_f, h_le, -, h_ahead, h_due⟩ := h.exists_start hf
      rw [← h_goes.inForce_eq h_orderly h_le] at h_f
      refine ⟨k, f, h_f, .inr ⟨?_, h_due ▸ h_over f hf⟩⟩
      rw [lowering, ← h_due, h_late₁, Nat.add_zero]

/-- Until a period starts, all that happens is that the pending falls are carried out, each when it
is due. -/
theorem falls_of_goesOn (h_lag : e.board.lag = 0) (h_lag₁ : e₁.board.lag = 0)
    (h_flight : e₁.pulseInFlight = false) :
    ∃ falls, e₁.edges = e.edges ++ falls ∧ falls.Perm (e.queue.events.map e.lowering) := by
  have h_orderly := h.steady.orderly
  obtain ⟨-, falls, h_edges, -⟩ := h_goes.extends h_orderly
  refine ⟨falls, h_edges, ?_⟩
  -- no fall is pending at the end, so those that were are over
  have h_over (f : Fall) (hf : f ∈ e.queue.events) :
      e.clock.now + (f.due - e.seen) ≤ e₁.clock.now := by
    refine Nat.le_of_not_lt fun h_lt => ?_
    have h_pending := (h.pending_of_goesOn h₁ h_goes h_quiet f).2 ⟨hf, h_lt⟩
    rw [events_of_not_inFlight h_flight] at h_pending
    exact absurd h_pending List.not_mem_nil
  have h_mem := h.mem_edges_of_goesOn h₁ h_goes h_quiet (h.timely.late_eq_zero h_lag)
    (h₁.timely.late_eq_zero h_lag₁) h_over
  have h_drop : e₁.edges.drop n = e.edges.drop n ++ falls := by
    rw [h_edges, List.drop_append_of_le_length h.timely.length_le]
  have h_nodup := h₁.timely.edges_nodup
  rw [h_drop] at h_nodup h_mem
  obtain ⟨-, h_once, h_new⟩ := List.nodup_append.1 h_nodup
  have h_pins : (e.queue.events.map e.lowering).Nodup := by
    refine List.Nodup.of_map Edge.pin ?_
    rw [List.map_map]
    exact h_orderly.tied.pending_nodup
  refine (List.perm_ext_iff_of_nodup h_once h_pins).2 fun x => ?_
  rw [List.mem_map]
  -- neither the new changes nor the pending falls are among the changes made before
  constructor
  · intro hx
    refine ((h_mem x).1 (List.mem_append_right _ hx)).resolve_left fun h_old => ?_
    exact h_new x h_old x hx rfl
  · rintro ⟨f, hf, rfl⟩
    refine (List.mem_append.1 ((h_mem _).2 (.inr ⟨f, hf, rfl⟩))).resolve_left ?_
    exact h.lowering_not_mem hf

end Quiet

end OnTime

/-! ### The wait -/

omit [LawfulPinBank P] in
theorem GoesOn.exists_coasts [FixedBank P] {m : Nat} (h : GoesOn older e older₁ e₁)
    (h_paced : Paced wraps origin m e) :
    ∃ k, Coasts .debug e k e₁ ∧ Paced wraps origin (m + k) e₁ := by
  induction h with
  | refl => exact ⟨0, .refl, h_paced⟩
  | next _ h_next ih =>
    obtain ⟨k, h_coasts, h_t⟩ := ih
    exact h_t.serve_coasts h_coasts h_next h_next

/-- Until a period starts, none is counted. -/
theorem OnTime.periods_of_goesOn [FixedBank P]
    (h : OnTime wraps origin n late (tableInForce (e :: older)) e)
    (h_goes : GoesOn older e older₁ e₁) (h_lag : e.board.lag = 0)
    (h_quiet : ∀ k, periodStart wraps origin k ≤ e₁.clock.now →
      periodStart wraps origin k ≤ e.clock.now) :
    e₁.periods = e.periods := by
  obtain ⟨m, h_paced⟩ := h.exists_paced h_lag
  obtain ⟨k, h_coasts, h_paced₁⟩ := h_goes.exists_coasts h_paced
  have h_none : k = 0 := by
    by_contra h_some
    -- the first of the new periods would have started since
    have h_start := (h_paced₁.periodStart_le_iff m).2 (by omega)
    exact Nat.lt_irrefl m ((h_paced.periodStart_le_iff m).1 (h_quiet m h_start))
  subst h_none
  exact congrArg Panel.periods (h_coasts.panel_eq h_paced.started)

variable [RoomyPinBank P] {i : Nat}

namespace Waiting

variable (h : Waiting older e i older₁ e₁)
  (h_time : OnTime e.config.wrapsPerPeriod.toNat e.clock.origin n late
    (tableInForce (e :: older)) e)
  (h_fits : ticksPerMicrosecond * e.config.stopPollUs.toNat + maxTargetTicks ≤ e.config.periodTicks)
  (h_i : i ≤ e.config.waitsFor e.lastFallIn)

include h h_time h_fits h_i

/-- Up to the look after the last pending fall no period starts. -/
theorem start_le (k : Nat)
    (h_start : periodStart e.config.wrapsPerPeriod.toNat e.clock.origin k ≤ e₁.clock.now) :
    periodStart e.config.wrapsPerPeriod.toNat e.clock.origin k ≤ e.clock.now := by
  obtain ⟨-, -, h_poll⟩ := e.config.validate_eq_ok_iff.1
    (h_time.steady.orderly.tied.prepared.valid h_time.steady.started)
  rw [h.now_eq] at h_start
  cases i with
  | zero => rwa [Config.lookAfter_zero] at h_start
  | succ i =>
    -- the last wait began while a pulse was in flight
    have h_before := (Config.lt_waitsFor_iff h_poll).1 h_i
    obtain ⟨f, hf, h_lt⟩ := lt_lastFallIn_iff.1 h_before
    rw [Config.lookAfter_succ] at h_start
    exact h_time.start_le_of_fits h_fits hf (by omega) h_start

/-- A look finds a pulse exactly if it comes before the last pending fall. -/
theorem inFlight_iff : e₁.pulseInFlight = true ↔ i < e.config.waitsFor e.lastFallIn := by
  obtain ⟨-, -, h_poll⟩ := e.config.validate_eq_ok_iff.1
    (h_time.steady.orderly.tied.prepared.valid h_time.steady.started)
  obtain ⟨late₁, h_time₁⟩ := h_time.goesOn h.goesOn
  have h_pending := h_time.pending_of_goesOn h_time₁ h.goesOn (h.start_le h_time h_fits h_i)
  rw [pulseInFlight_iff, Config.lt_waitsFor_iff h_poll, lt_lastFallIn_iff]
  refine exists_congr fun f => (h_pending f).trans (and_congr_right fun _ => ?_)
  rw [h.now_eq, Nat.add_lt_add_iff_left]

end Waiting

/-- With a poll interval that fits into the gap, the last look is the first one after the last
pending fall. It finds no pulse, so the stop does not give up. -/
theorem exists_waiting_of_fits (h_handy : Handy e)
    (h_time : OnTime e.config.wrapsPerPeriod.toNat e.clock.origin n late
      (tableInForce (e :: older)) e)
    (h_fits : ticksPerMicrosecond * e.config.stopPollUs.toNat + maxTargetTicks ≤
      e.config.periodTicks)
    (h_room : e.clock.now + e.config.lookAfter (e.config.waitsFor e.lastFallIn) + ticksPerWrap <
      Width.bits64.size) :
    ∃ e' older₁ e₁, (stopWith .serving).run .debug e =
        .ok ⟨e.config.waitsFor e.lastFallIn, false⟩ e' ∧
      Waiting older e (e.config.waitsFor e.lastFallIn) older₁ e₁ ∧
      shutDown.run .debug e₁ = .ok () e' ∧ e₁.pulseInFlight = false := by
  have h_valid := h_handy.orderly.tied.prepared.valid h_time.steady.started
  obtain ⟨-, -, h_poll⟩ := e.config.validate_eq_ok_iff.1 h_valid
  obtain ⟨⟨polls, forced⟩, e', h_run, older₁, e₁, ⟨h_waiting, h_le⟩, h_down, h_forced, h_cut⟩ :=
    returns_stopWith_of_last h_handy h_time
      (fun h_i h_flight _ h_le => (h_i.inFlight_iff h_time h_fits h_le).1 h_flight) h_room
  have h_iff := h_waiting.inFlight_iff h_time h_fits h_le
  -- a look before the last fall is not the last one, for the timeout covers the longest pulse
  have h_flight : e₁.pulseInFlight = false := by
    refine Bool.eq_false_iff.2 fun h_some => ?_
    have h_before := (Config.lt_waitsFor_iff h_poll).1 (h_iff.1 h_some)
    have h_all := Config.maxTargetTicks_le_lookAfter h_valid
    have h_looks := e.config.lookAfter_le (h_cut (h_forced.trans h_some))
    have h_last := h_time.lastFallIn_le
    omega
  -- nor is it the last one because it finds no pulse
  obtain rfl : polls = e.config.waitsFor e.lastFallIn := by
    refine Nat.le_antisymm h_le (Nat.le_of_not_lt fun h_lt => ?_)
    exact absurd (h_iff.2 h_lt) (Bool.eq_false_iff.1 h_flight)
  obtain rfl : forced = false := h_forced.trans h_flight
  exact ⟨e', older₁, e₁, h_run, h_waiting, h_down, h_flight⟩

/-- A stop of `e` that serves every event while it waits returns, under both profiles, after `waits`
waits and without giving up. All that happens to the pins is that the pending falls are carried out,
each when it is due, a full width after its rise. No period begins, every pulse is complete, and all
pins are low. -/
structure ExactStop (older : List (Engine (Bench (Scope P)))) (e : Engine (Bench (Scope P)))
    (waits : Nat) (e' : Engine (Bench (Scope P))) : Prop where
  run_eq : ∀ q, (stopWith .serving).run q e = .ok ⟨waits, false⟩ e'
  falls : ∃ falls, e'.edges = e.edges ++ falls ∧ falls.Perm (e.queue.events.map e.lowering)
  whole : ∀ f ∈ e.queue.events, ∃ T,
    .rise T f.pin ∈ e.edges ∧ e.lowering f = .fall (T + f.due) f.pin
  completed : ∃ older₁ e₁, GoesOn older e older₁ e₁ ∧ shutDown.run .debug e₁ = .ok () e' ∧
    Completed (tableInForce (e₁ :: older₁)) e'
  periods_eq : e'.periods = e.periods
  low : ∀ pin, PinBank.isHigh e'.pins pin = false

section Recorded

variable {p : Profile} {config : Config} {now : Nat}
  {older : List (Engine (Bench (Scope PinRecorder)))} {e : Engine (Bench (Scope PinRecorder))}

/-- **Exact stops.** In a clean run without lag, with a poll interval that fits into the gap between
the longest pulse and the end of a period, a stop that serves every event while it waits makes
exactly the waits that it takes for the last pending fall to come: none if no pulse is in flight,
and `⌈r / poll⌉` if the last one ends in `r` ticks. Time has to reach to the last look. -/
theorem exact_stop
    (h_fits : ticksPerMicrosecond * config.stopPollUs.toNat + maxTargetTicks ≤ config.periodTicks)
    (h : CleanRun p (freshObserved config 0 now) older e) (h_on : e.started = true)
    (h_room : e.clock.now + config.lookAfter (config.waitsFor e.lastFallIn) + ticksPerWrap <
      Width.bits64.size) :
    ∃ e', ExactStop older e (config.waitsFor e.lastFallIn) e' := by
  obtain ⟨h_handy, rfl⟩ := handy_of_cleanRun h
  obtain ⟨n, late, h_time, -⟩ := (onSchedule_of_cleanRun h).onTime h_on
  obtain ⟨e', older₁, e₁, h_run, h_waiting, h_down, h_flight⟩ :=
    exists_waiting_of_fits h_handy h_time h_fits h_room
  obtain ⟨late₁, h_time₁⟩ := h_time.goesOn h_waiting.goesOn
  -- no period starts between the first look and the last one
  have h_quiet := h_waiting.start_le h_time h_fits (Nat.le_refl _)
  have h_tied := h_time₁.steady.orderly.tied
  have h_queue := events_of_not_inFlight h_flight
  have h_now : e.clock.now < Clock.instants := by
    change _ < Width.bits64.size
    omega
  refine ⟨e', ?_, ?_, fun f hf => h_time.whole hf, ⟨older₁, e₁, h_waiting.goesOn, h_down, ?_⟩, ?_,
    fun pin => ?_⟩
  · -- the release profile does what the debug profile does
    exact (run_of_run_debug (tracks_stopServing
      (Scope.pinsTrack_self PinRecorder.pinsTrack)) h_now h_run).1
  · -- the shutdown finds all pins low, so all changes come from the waits
    rw [edges_shutDown h_tied h_queue h_down]
    exact h_time.falls_of_goesOn h_time₁ h_waiting.goesOn h_quiet h_handy.lag_eq
      h_waiting.handy.lag_eq h_flight
  · exact (onSchedule_of_cleanRun (h.goesOn h_waiting.goesOn)).completed h_waiting.handy.lag_eq
      h_time₁.steady.started h_flight h_down
  · -- a shutdown counts no period
    have h_periods := h_time.periods_of_goesOn h_waiting.goesOn h_handy.lag_eq h_quiet
    obtain ⟨pins, -, rfl⟩ := run_shutDown_eq_ok h_down
    exact h_periods
  · -- with nothing pending no pin is high, and the shutdown raises none
    refine Bool.eq_false_iff.2 fun h_pin => ?_
    have h_high := ((isHigh_shutDown h_tied.prepared h_down pin).1 h_pin).1
    rw [h_tied.low h_queue pin] at h_high
    exact Bool.noConfusion h_high

end Recorded

theorem exact_stop_midPulseRun :
    (midPulseRun.get isSome_midPulseRun).2.lastFallIn = 21536 ∧
      ∃ e', ExactStop ((midPulseRun.get isSome_midPulseRun).1 ++ [freshObserved {} 0 0])
        (midPulseRun.get isSome_midPulseRun).2 90 e' := by
  have h_last : (midPulseRun.get isSome_midPulseRun).2.lastFallIn = 21536 := by decide +kernel
  refine ⟨h_last, ?_⟩
  have h_stop := exact_stop (by decide) cleanRun_midPulseRun (by decide +kernel)
    (by decide +kernel)
  rwa [h_last] at h_stop

end Engine

end ServoPulse
