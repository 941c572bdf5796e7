import ServoPulse.Proofs.LevelChanges

/-!
# Settling in time

Where arming the compare channel takes few enough ticks that the counter does not overflow in the
meantime, settling carries out the falls that have come due and no others, each of them once, and
leaves the compare channel armed for the next fall (`carriedOut_of_run_fallDue`). A fall that comes
due while the channel is being armed for it waits for less than the time that this takes: it was
ahead when the arming began.
-/

namespace ServoPulse

namespace Engine

variable {P : Type} [PinBank P] [LawfulPinBank P] {e e' : Engine (Bench (Scope P))}

/-- The longest time for arming the compare channel that fits between the latest fall and the end
of the turn. -/
abbrev maxLag : Nat := ticksPerWrap - maxTargetTicks

/-- What came due is carried out, each fall at the time that stands with it, and nothing else
happens but that the compare channel is set. -/
structure CarriedOut (e e' : Engine (Bench (Scope P))) : Prop where
  tied : Tied e'
  lag_eq : e'.board.lag = e.board.lag
  now_le : e.clock.now ≤ e'.clock.now
  turns_eq : e'.clock.turns = e.clock.turns
  clock_eq : e'.clock = { e.clock with
    now := e'.clock.now, compare := e'.clock.compare, comparePending := e'.clock.comparePending }
  table_eq : e'.table = e.table
  wrap_eq : e'.wrap = e.wrap
  setup_eq : e'.config = e.config ∧ e'.started = e.started
  falls : ∃ done : List (Fall × Nat), e.queue.events = done.map Prod.fst ++ e'.queue.events ∧
    e'.edges = e.edges ++ (done.map fun d => .fall d.2 d.1.pin) ∧ done.Pairwise (·.2 ≤ ·.2) ∧
    ∀ d ∈ done, e.clock.now ≤ d.2 ∧ d.2 ≤ e'.clock.now ∧
      d.1.due ≤ e.seen + (d.2 - e.clock.now) ∧
      e.seen + (d.2 - e.clock.now) ≤ d.1.due + (e.board.lag - 1)
  /-- No fall that is left has waited for longer. -/
  overdue_le : ∀ f ∈ e'.queue.events, e'.seen ≤ f.due + (e.board.lag - 1)

/-- An engine that settles in the turn of all its pending falls. -/
structure Settleable (e : Engine (Bench (Scope P))) : Prop where
  tied : Tied e
  lag_le : e.board.lag ≤ maxLag
  running : e.clock.running = true
  origin_le : e.clock.origin ≤ e.clock.now
  sorted : e.queue.events.Pairwise (· ≤ ·)
  short : ∀ f ∈ e.queue.events, f.due ≤ maxTargetTicks
  wrap_eq : ∀ f ∈ e.queue.events, f.wrap = e.wrap
  overdue_le : ∀ f ∈ e.queue.events, e.seen ≤ f.due + (e.board.lag - 1)

namespace CarriedOut

theorem refl (h : Settleable e) : CarriedOut e e where
  tied := h.tied
  lag_eq := rfl
  now_le := Nat.le_refl _
  turns_eq := rfl
  clock_eq := rfl
  table_eq := rfl
  wrap_eq := rfl
  setup_eq := ⟨rfl, rfl⟩
  falls := ⟨[], rfl, (List.append_nil _).symm, .nil, nofun⟩
  overdue_le := h.overdue_le

/-- The time that passes is seen by the engine. -/
theorem seen_eq (h : CarriedOut e e') (h_e : Settleable e) :
    e'.seen = e.seen + (e'.clock.now - e.clock.now) := by
  have h_origin : e'.clock.origin = e.clock.origin := by rw [h.clock_eq]
  have h_running : e'.clock.running = true := by
    rw [h.clock_eq]
    exact h_e.running
  have h_now := h.now_le
  have h_turns := h.turns_eq
  have h_before := h_e.origin_le
  rw [seen_of_running h_running, seen_of_running h_e.running, h.wrap_eq, Clock.count, Clock.count,
    h_origin]
  -- within one turn of the counter, it counts the ticks that pass
  rw [Clock.turns, Clock.turns, h_origin] at h_turns
  simp only [ticksPerWrap] at *
  omega

/-- The falls that are left were there before. -/
theorem mem_of_left (h : CarriedOut e e') {f : Fall} (hf : f ∈ e'.queue.events) :
    f ∈ e.queue.events := by
  obtain ⟨done, h_split, -⟩ := h.falls
  rw [h_split]
  exact List.mem_append_right _ hf

theorem sorted (h : CarriedOut e e') (h_e : Settleable e) :
    e'.queue.events.Pairwise (· ≤ ·) := by
  have h_sorted := h_e.sorted
  obtain ⟨done, h_split, -⟩ := h.falls
  rw [h_split, List.pairwise_append] at h_sorted
  exact h_sorted.2.1

/-- A fall that is ahead has all the later ones ahead as well. -/
theorem ahead (h : CarriedOut e e') (h_e : Settleable e) {f : Fall} {rest : List Fall}
    (h_queue : e'.queue.events = f :: rest) (h_due : e'.seen < f.due) :
    ∀ g ∈ e'.queue.events, e'.seen < g.due := by
  have h_sorted := h.sorted h_e
  rw [h_queue] at h_sorted ⊢
  intro g hg
  exact Nat.lt_of_lt_of_le h_due (FallQueue.first_due_le h_sorted hg)

theorem lower {f : Fall} {rest : List Fall} {t : Engine (Bench (Scope P))} (h : CarriedOut e t)
    (h_e : Settleable e) (h_queue : t.queue.events = f :: rest) (h_due : f.due ≤ t.seen)
    (h_run : (Engine.lower f rest).run .debug t = .ok () e') : CarriedOut e e' := by
  have h_mem : f ∈ t.queue.events := by
    rw [h_queue]
    exact List.mem_cons_self
  have h_pin := List.mem_map_of_mem (f := Fall.pin) h_mem
  -- the pin of a pending fall is high, so that its fall is an edge
  have h_high := (h.tied.high_iff f.pin).2 h_pin
  have h_tied := h.tied.lower h_queue h_run
  have h_seen := h.seen_eq h_e
  have h_overdue := h.overdue_le
  have h_now := h.now_le
  obtain ⟨done, h_split, h_edges, h_order, h_done⟩ := h.falls
  obtain ⟨pins, h_pins, rfl⟩ := run_lower_eq_ok_iff.1 h_run
  refine ⟨h_tied, h.lag_eq, h.now_le, h.turns_eq, h.clock_eq, h.table_eq, h.wrap_eq, h.setup_eq,
    ⟨done ++ [(f, t.clock.now)], ?_, ?_, ?_, ?_⟩, fun g hg => ?_⟩
  · -- the fall joins those carried out, in the order of the queue
    rw [h_split, h_queue, List.map_append, List.append_assoc]
    rfl
  · change pins.edges = _
    rw [Scope.drive_edges (h.tied.pending_output f.pin h_pin) h_pins, if_neg (by simp [h_high]),
      List.map_append, ← List.append_assoc, ← h_edges]
    rfl
  · -- its time is the latest so far
    refine List.pairwise_append.2 ⟨h_order, List.pairwise_singleton _ _, fun d hd u hu => ?_⟩
    obtain rfl := List.mem_singleton.1 hu
    exact (h_done d hd).2.1
  · intro d hd
    rcases List.mem_append.1 hd with hd | hd
    · exact h_done d hd
    · -- it was due, and no more overdue than a pending fall may be
      obtain rfl := List.mem_singleton.1 hd
      exact ⟨h_now, Nat.le_refl _, h_seen ▸ h_due, h_seen ▸ h_overdue f h_mem⟩
  · -- the falls left were pending before
    refine h_overdue g ?_
    rw [h_queue]
    exact List.mem_cons_of_mem f hg

/-- A fall that is not due yet is in the first turn, and leaves room for the lag in it. -/
theorem after_lag_lt {f : Fall} {t : Engine (Bench (Scope P))} (h : CarriedOut e t)
    (h_e : Settleable e) (hf : f ∈ t.queue.events) (h_due : t.seen < f.due)
    (h_wrap : f.wrap = t.wrap) : t.clock.now + t.board.lag < t.clock.overflowAt := by
  have h_short := h_e.short f (h.mem_of_left hf)
  have h_running : t.clock.running = true := by
    rw [h.clock_eq]
    exact h_e.running
  -- the fall is in the first turn of a period, and so is the engine
  have h_count : t.clock.count < f.due := by
    rwa [seen_of_running h_running, ← h_wrap, Fall.wrap_eq_zero h_short, Nat.zero_mul,
      Nat.zero_add] at h_due
  have h_lag : t.board.lag ≤ maxLag := by
    rw [h.lag_eq]
    exact h_e.lag_le
  -- a pulse and the lag together are shorter than a turn of the counter
  rw [Clock.overflowAt]
  simp only [maxLag, maxTargetTicks, ticksPerWrap] at *
  omega

/-- Arming lets the lag pass, which ends before the turn does. -/
theorem arm {f : Fall} {rest : List Fall} {limit : Nat} {clock : Clock}
    {t : Engine (Bench (Scope P))} (h : CarriedOut e t) (h_e : Settleable e)
    (h_queue : t.queue.events = f :: rest) (h_due : t.seen < f.due) (h_wrap : f.wrap = t.wrap)
    (h_limit : (t.clock.after t.board.lag).run .debug = .ok limit)
    (h_pass : (Clock.passUntil limit).run .debug (t.clock.arm f.compareValue) = .ok () clock) :
    CarriedOut e (t.withClock clock) := by
  obtain ⟨h_fits, rfl⟩ := Checked.run_add_debug_iff.1 h_limit
  -- arming takes the lag and no more
  have h_now' : clock.now = t.clock.now + t.board.lag :=
    (Clock.now_of_run_passUntil h_fits h_pass).trans (Nat.max_eq_right (Nat.le_add_right _ _))
  have h_passes := Clock.keeps_passUntil _ h_pass
  have h_running : t.clock.running = true := by
    rw [h.clock_eq]
    exact h_e.running
  have h_now := h.now_le
  have h_origin : t.clock.origin ≤ t.clock.now := by
    rw [h.clock_eq]
    exact Nat.le_trans h_e.origin_le h_now
  have h_within : clock.now < t.clock.overflowAt :=
    h_now' ▸ h.after_lag_lt h_e (h_queue ▸ List.mem_cons_self) h_due h_wrap
  have h_le : t.clock.now ≤ clock.now := h_now' ▸ Nat.le_add_right _ _
  obtain ⟨h_turns, h_ticks⟩ :=
    Clock.count_of_lt_overflowAt h_origin h_passes.origin_eq h_le h_within
  have h_clock := h_passes.eq_of_lt_overflowAt h_origin h_within
  -- the engine sees the lag pass
  have h_seen' : (t.withClock clock).seen = t.seen + t.board.lag := by
    have h_run' : (t.withClock clock).clock.running = true := h_passes.running_eq.trans h_running
    rw [seen_of_running h_run', seen_of_running h_running]
    change t.wrap * ticksPerWrap + clock.count = _
    rw [h_ticks, h_now', Nat.add_sub_cancel_left, Nat.add_assoc]
  obtain ⟨done, h_split, h_edges, h_order, h_done⟩ := h.falls
  refine ⟨h.tied.of_time _ _ _, h.lag_eq, Nat.le_trans h_now h_le, h_turns.trans h.turns_eq, ?_,
    h.table_eq, h.wrap_eq, h.setup_eq, ⟨done, h_split, h_edges, h_order, fun d hd => ?_⟩,
    fun g hg => ?_⟩
  · -- only the time and the compare channel have changed
    change clock = { e.clock with
      now := clock.now, compare := clock.compare, comparePending := clock.comparePending }
    rw [h_passes.compare_eq]
    refine h_clock.trans ?_
    rw [Clock.arm, h.clock_eq]
  · -- what was carried out before the lag has its time before it
    obtain ⟨h_from, h_by, h_rest⟩ := h_done d hd
    exact ⟨h_from, Nat.le_trans h_by h_le, h_rest⟩
  · -- every fall that is left was ahead when the arming began
    have h_ahead := h.ahead h_e h_queue h_due g hg
    rw [h_seen', h.lag_eq]
    omega

theorem settleStable (h_e : Settleable e) : SettleStable (CarriedOut e) where
  lower h h_queue h_due _ h_run := h.lower h_e h_queue h_due h_run
  arm h h_queue h_due h_wrap h_limit h_pass := h.arm h_e h_queue h_due h_wrap h_limit h_pass

end CarriedOut

/-- **Settling in time.** The falls that have come due by the end are carried out, each less than
the lag late, and the compare channel is armed for the first of the others. -/
theorem carriedOut_of_run_fallDue (h_e : Settleable e) (h_run : fallDue.run .debug e = .ok () e') :
    CarriedOut e e' ∧ (∀ f ∈ e'.queue.events, e'.seen < f.due) ∧
      e'.clock.compare = e'.queue.events.head?.map Fall.compareValue := by
  obtain ⟨t, h, h_end⟩ := settled_of_run_fallDue (CarriedOut.settleStable h_e) (.refl h_e) h_run
  cases h_end with
  | empty h_queue =>
    -- nothing is left to wait for
    have h_t : Tied { t.withClock t.clock.disarm with phase := .idle } := h.tied.of_time _ _ _
    refine ⟨⟨h_t, h.lag_eq, h.now_le, h.turns_eq, ?_, h.table_eq, h.wrap_eq, h.setup_eq, h.falls,
      h.overdue_le⟩, ?_, ?_⟩
    · change t.clock.disarm = _
      rw [Clock.disarm, h.clock_eq]
      rfl
    · change ∀ f ∈ t.queue.events, _
      rw [h_queue]
      exact fun f hf => absurd hf List.not_mem_nil
    · change none = t.queue.events.head?.map _
      rw [h_queue]
      rfl
  | @later f rest h_queue h_due h_other =>
    -- every pending fall is in the present turn
    refine absurd ?_ h_other
    rw [h.wrap_eq]
    exact h_e.wrap_eq f (h.mem_of_left (h_queue ▸ List.mem_cons_self))
  | @armed f rest h_queue h_due _ h_compare =>
    -- the first fall is ahead, and so are those behind it
    refine ⟨h, h.ahead h_e h_queue h_due, ?_⟩
    rw [h_compare, h_queue]
    rfl

end Engine

end ServoPulse
