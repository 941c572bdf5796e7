import Mathlib.Data.List.Sort
import ServoPulse.Proofs.LaterTurns
import ServoPulse.Proofs.Replay

/-!
# The times of the falls of a queue

While every event is served at once, an engine that is `Awaiting` the falls of its period stays so
until the period is `Over`. In both cases what it asked of the pins since it was settled is given by
the queue alone: up to the end of the period it is one request for each fall whose time has come, in
the order of the queue (`Awaiting.drives_eq`, `Over.drives_eq`). As the falls of a queue are sorted,
those of one service are next to each other (`Fall.filter_timeIn_le`), and two that are due at the
same time keep the order of their servos.

That the falls do come needs room for the requests, as for any interrupt: an engine that is
`Supplied` returns from each service up to the end of its period.
-/

namespace ServoPulse

/-! ### Falls in order -/

namespace Fall

variable {T : Int} {len : Nat} {q : List Fall} {f g : Fall}

instance : Std.Antisymm (α := Fall) (· ≤ ·) := ⟨fun _ _ => Fall.le_antisymm⟩

theorem timeIn_mono (h : f ≤ g) : f.timeIn T len ≤ g.timeIn T len := by
  have h_due := due_le_of_le h
  rw [timeIn, timeIn]
  omega

theorem timeIn_le : f.timeIn T len ≤ (T + len).toNat := by
  rw [timeIn]
  omega

/-- Of falls in order, those up to a later time are those up to an earlier time and then those in
between. -/
theorem filter_timeIn_le {s s' : Nat} (h_sorted : q.Pairwise (· ≤ ·)) (h : s ≤ s') :
    q.filter (·.timeIn T len ≤ s') = q.filter (·.timeIn T len ≤ s) ++
      q.filter fun f => s < f.timeIn T len ∧ f.timeIn T len ≤ s' := by
  induction q with
  | nil => rfl
  | cons f q ih =>
    -- induction on the queue; the cases are whether the first fall has its time by `s`
    obtain ⟨h_first, h_rest⟩ := List.pairwise_cons.1 h_sorted
    by_cases h_f : f.timeIn T len ≤ s
    · rw [List.filter_cons_of_pos (by simpa using Nat.le_trans h_f h),
        List.filter_cons_of_pos (by simpa using h_f), List.filter_cons_of_neg (by simp [h_f]),
        ih h_rest, List.cons_append]
    · -- the first fall comes after `s`, and so do the others
      have h_after : ∀ g ∈ f :: q, s < g.timeIn T len := by
        intro g hg
        rcases List.mem_cons.1 hg with rfl | hg
        · exact Nat.lt_of_not_le h_f
        · exact Nat.lt_of_lt_of_le (Nat.lt_of_not_le h_f) (timeIn_mono (h_first g hg))
      have h_none : (f :: q).filter (·.timeIn T len ≤ s) = [] :=
        List.filter_eq_nil_iff.2 fun g hg => by simpa using h_after g hg
      rw [h_none, List.nil_append]
      exact List.filter_congr fun g hg => by simp [h_after g hg]

/-- Two falls of a queue stand in their order. -/
theorem pair_sublist (h_sorted : q.Pairwise (· ≤ ·)) (hf : f ∈ q) (hg : g ∈ q) (h_le : f ≤ g)
    (h_ne : f ≠ g) : [f, g].Sublist q := by
  have h_sub : [f, g] ⊆ q := fun x hx => by
    rcases List.mem_pair.1 hx with rfl | rfl
    · exact hf
    · exact hg
  have h_nodup : [f, g].Nodup := List.nodup_cons.2 ⟨by simpa using h_ne, List.nodup_singleton g⟩
  exact List.sublist_of_subperm_of_pairwise (List.subperm_of_subset h_nodup h_sub)
    (List.pairwise_pair.2 h_le) h_sorted

end Fall

/-- The first request about a pin after the first `n` requests of all. -/
def Journal.firstDrive? {P : Type} (n pin : Nat) (j : Journal P) : Option Drive :=
  (j.drives.drop n).find? (·.pin = pin)

namespace Engine

variable {P : Type} [PinBank P] {T : Int} {len limit : Nat} {q : List Fall} {base : List Drive}
  {event : Bool} {e e' e₀ : Engine (Bench (Journal P))}

/-! ### What was requested -/

omit [PinBank P] in
theorem Awaiting.drives_eq (h : Awaiting T len q base e) :
    e.pins.drives = base ++ (q.filter (·.timeIn T len ≤ e.clock.now)).map (·.driveIn T len) := by
  have h_start := h.start_add_seen
  have h_seen := h.seen_lt
  rw [h.len_eq] at h_seen
  obtain ⟨done, h_q, h_done, h_drives⟩ := h.falls
  -- every fall that is still queued is ahead of the clock
  have h_left : e.queue.events.filter (·.timeIn T len ≤ e.clock.now) = [] := by
    refine List.filter_eq_nil_iff.2 fun f hf => ?_
    have h_ahead := h.ahead f hf
    rw [decide_eq_true_iff, Fall.timeIn]
    omega
  -- every fall that is gone was due by now
  have h_past : done.filter (·.timeIn T len ≤ e.clock.now) = done := by
    refine List.filter_eq_self.2 fun f hf => ?_
    have h_due := h_done f hf
    rw [decide_eq_true_iff, Fall.timeIn]
    omega
  rw [h_drives, h_q, List.filter_append, h_left, h_past, List.append_nil]

omit [PinBank P] in
theorem Over.drives_eq (h : Over T len q base e) :
    ∃ more, e.pins.drives =
        base ++ (q.filter (·.timeIn T len ≤ e.clock.now)).map (·.driveIn T len) ++ more ∧
      ∀ x ∈ more, T + len ≤ x.time := by
  obtain ⟨more, h_drives, h_more⟩ := h.falls
  -- all times lie within the period, which is over
  have h_all : q.filter (·.timeIn T len ≤ e.clock.now) = q := by
    refine List.filter_eq_self.2 fun f _ => ?_
    have h_end := h.end_le
    rw [decide_eq_true_iff, Fall.timeIn]
    omega
  rw [h_all]
  exact ⟨more, h_drives, fun x hx => (h_more x hx).1⟩

/-! ### Serving on -/

/-- What comes after the end of a period does not change what was requested up to then. -/
theorem Over.serve (h : Over T len q base e)
    (h_run : (serveNext limit).run .debug e = .ok event e') : Over T len q base e' := by
  -- whatever is requested from now on carries the present instant
  obtain ⟨h_origin, new, h_drives, h_new, -⟩ := standsAt_of_run_serveNext h.lag_eq h_run
  have h_lag := (now_of_run_serveNext h.lag_eq h_run).1
  have h_from := now_le_of_run_serveNext h.lag_eq h_run
  have h_end := h.end_le
  obtain ⟨more, h_before, h_more⟩ := h.falls
  refine ⟨h_lag, h_origin ▸ Nat.le_trans h.origin_le h_from, by omega, more ++ new, ?_, ?_⟩
  · rw [h_drives, h_before, List.append_assoc _ more]
  · intro x hx
    rcases List.mem_append.1 hx with hx | hx
    · -- requested before this event
      have h_x := h_more x hx
      exact ⟨h_x.1, Nat.le_trans h_x.2 h_from⟩
    · -- requested by it
      rw [h_new x hx]
      exact ⟨by omega, Nat.le_refl _⟩

/-- **Serving on.** An engine awaits the falls of its period until this is over. -/
theorem awaiting_or_over_of_goesOn {older older' : List (Engine (Bench (Journal P)))}
    (h : Awaiting T len q base e) (h_sorted : q.Pairwise (· ≤ ·))
    (h_goes : GoesOn older e older' e') :
    Awaiting T len q base e' ∨ Over T len q base e' := by
  -- induction on the links: the period goes on, ends with this link, or is over
  induction h_goes with
  | refl => exact .inl h
  | next _ h_next ih =>
    rcases ih with h_awaiting | h_over
    · cases h_awaiting.serve h_sorted h_next with
      | awaiting h_still => exact .inl h_still
      | ended h_over => exact .inr h_over
    · exact .inr (h_over.serve h_next)

/-! ### The first request about a pin -/

omit [PinBank P] in
/-- In a queue with distinct pins, the request about the pin of a fall is the one that carries out
this fall, if it is among those that were made. -/
theorem find?_driveIn {f : Fall} {due : Fall → Bool} (h_pins : (q.map Fall.pin).Nodup)
    (hf : f ∈ q) :
    ((q.filter due).map (·.driveIn T len)).find? (·.pin = f.pin) =
      if due f then some (f.driveIn T len) else none := by
  -- one pin, one fall: nothing else in the queue can be found under this pin
  have h_only : ∀ g ∈ q.filter due, g.pin = f.pin → g = f := fun g hg h_pin =>
    List.inj_on_of_nodup_map h_pins (List.mem_of_mem_filter hg) hf h_pin
  have h_same : (fun x : Drive => decide (x.pin = f.pin)) ∘ (·.driveIn T len) =
      fun g : Fall => decide (g.pin = f.pin) := rfl
  rw [List.find?_map, h_same]
  -- found when it is due, and nothing found when it is not
  by_cases h_due : due f
  · have h_some : ((q.filter due).find? fun g => decide (g.pin = f.pin)).isSome :=
      List.find?_isSome.2 ⟨f, List.mem_filter.2 ⟨hf, h_due⟩, decide_eq_true rfl⟩
    obtain ⟨g, h_find⟩ := Option.isSome_iff_exists.1 h_some
    have h_pin : g.pin = f.pin := by simpa using List.find?_some h_find
    obtain rfl := h_only g (List.mem_of_find?_eq_some h_find) h_pin
    rw [if_pos h_due, h_find]
    rfl
  · have h_none : (q.filter due).find? (fun g => decide (g.pin = f.pin)) = none := by
      refine List.find?_eq_none.2 fun g hg h_pin => h_due ?_
      have h_g := h_only g hg (of_decide_eq_true h_pin)
      exact h_g ▸ (List.mem_filter.1 hg).2
    rw [if_neg h_due, h_none]
    rfl

omit [PinBank P] in
/-- **On time.** The first request about the pin of a fall is the one that carries it out, and it
was made if its time has come. -/
theorem firstDrive?_eq {f : Fall} (h : Awaiting T len q base e ∨ Over T len q base e)
    (h_pins : (q.map Fall.pin).Nodup) (hf : f ∈ q) :
    e.pins.firstDrive? base.length f.pin =
      if f.timeIn T len ≤ e.clock.now then some (f.driveIn T len) else none := by
  -- in the period all falls due by now were requested; afterwards all of them were
  rcases h with h | h
  · rw [Journal.firstDrive?, h.drives_eq, List.drop_left, find?_driveIn h_pins hf]
    simp only [decide_eq_true_iff]
  · obtain ⟨more, h_drives, -⟩ := h.drives_eq
    have h_time : f.timeIn T len ≤ e.clock.now := by
      have h_end := h.end_le
      have h_le : f.timeIn T len ≤ (T + len).toNat := f.timeIn_le
      omega
    -- what came after the period stands behind and is not looked at
    rw [Journal.firstDrive?, h_drives, List.append_assoc, List.drop_left, List.find?_append,
      find?_driveIn h_pins hf, if_pos (decide_eq_true h_time), if_pos h_time, Option.some_or]

/-- Serving an event makes the requests of all falls whose time comes with it, in their order. -/
theorem Awaiting.exists_drives_of_serveNext (h : Awaiting T len q base e)
    (h_sorted : q.Pairwise (· ≤ ·))
    (h_run : (serveNext limit).run .debug e = .ok event e') :
    ∃ more, e'.pins.drives.drop e.pins.drives.length =
      (q.filter fun f => e.clock.now < f.timeIn T len ∧ f.timeIn T len ≤ e'.clock.now).map
        (·.driveIn T len) ++ more := by
  have h_before := h.drives_eq
  -- whether the period ends with this event or not, the due falls are requested first
  obtain ⟨more, h_drives⟩ : ∃ more, e'.pins.drives =
      base ++ (q.filter (·.timeIn T len ≤ e'.clock.now)).map (·.driveIn T len) ++ more := by
    cases h.serve h_sorted h_run with
    | awaiting h_still => exact ⟨[], by rw [List.append_nil]; exact h_still.drives_eq⟩
    | ended h_over =>
      obtain ⟨more, h_drives, -⟩ := h_over.drives_eq
      exact ⟨more, h_drives⟩
  -- in a sorted queue, the falls of the earlier times come before all others
  rw [Fall.filter_timeIn_le h_sorted (now_le_of_run_serveNext h.lag_eq h_run), List.map_append,
    ← List.append_assoc, ← h_before, List.append_assoc] at h_drives
  exact ⟨more, by rw [h_drives, List.drop_left]⟩

/-- **Ties.** Two falls with the same time are carried out by one interrupt, in their order. -/
theorem sublist_drives_of_tie {f g : Fall} (h : Awaiting T len q base e ∨ Over T len q base e)
    (h_sorted : q.Pairwise (· ≤ ·)) (hf : f ∈ q) (hg : g ∈ q) (h_le : f ≤ g) (h_ne : f ≠ g)
    (h_tie : f.timeIn T len = g.timeIn T len) (h_after : e.clock.now < f.timeIn T len)
    (h_run : (serveNext limit).run .debug e = .ok event e')
    (h_by : f.timeIn T len ≤ e'.clock.now) :
    event = true ∧
      [f.driveIn T len, g.driveIn T len].Sublist (e'.pins.drives.drop e.pins.drives.length) := by
  have h_early : f.timeIn T len ≤ (T + len).toNat := f.timeIn_le
  rcases h with h | h
  swap
  · -- all falls have had their time when the period is over
    have h_end := h.end_le
    omega
  obtain ⟨more, h_drives⟩ := h.exists_drives_of_serveNext h_sorted h_run
  -- both falls have the same time, so both are among the requests of this event
  have h_pair : [f.driveIn T len, g.driveIn T len].Sublist
      (e'.pins.drives.drop e.pins.drives.length) := by
    rw [h_drives]
    refine List.Sublist.trans ?_ (List.sublist_append_left _ _)
    have h_both := (Fall.pair_sublist h_sorted hf hg h_le h_ne).filter
      fun f => e.clock.now < f.timeIn T len ∧ f.timeIn T len ≤ e'.clock.now
    rw [List.filter_eq_self.2 (fun x hx => ?_)] at h_both
    · exact h_both.map (·.driveIn T len)
    · -- the time of the one fall comes with the event, and so does that of the other
      rcases List.mem_pair.1 hx with rfl | rfl
      · exact decide_eq_true ⟨h_after, h_by⟩
      · exact decide_eq_true (h_tie ▸ ⟨h_after, h_by⟩)
  obtain ⟨-, new, h_new, -, h_none⟩ := standsAt_of_run_serveNext h.lag_eq h_run
  refine ⟨?_, h_pair⟩
  -- without an event there are no requests at all
  cases event with
  | true => rfl
  | false =>
    rw [h_new, h_none rfl, List.drop_left] at h_pair
    exact absurd (List.sublist_nil.1 h_pair) (List.cons_ne_nil _ _)

/-! ### Room for the requests -/

variable [LawfulPinBank P] [RoomyPinBank P]

/-- An engine that awaits the falls of its period, with room for them and for an interrupt. -/
structure Supplied (T : Int) (len : Nat) (q : List Fall) (base : List Drive)
    (e : Engine (Bench (Journal P))) : Prop extends Awaiting T len q base e where
  size_le : e.queue.events.length ≤ maxServos
  room : RoomyPinBank.Room e.clock.now (e.queue.events.length + 2 * maxServos) e.pins

namespace Supplied

/-- Carrying out some falls of the queue takes as much room as they had. -/
theorem of_awaiting {done : List Fall} (h : Awaiting T len q base e')
    (h_size : e.queue.events.length ≤ maxServos) (h_now : e.clock.now ≤ e'.clock.now)
    (h_room : RoomyPinBank.Room e.clock.now (e.queue.events.length + 2 * maxServos) e.pins)
    (h_split : e.queue.events = done ++ e'.queue.events)
    (h_run : (PinBank.driveAll false e'.clock.now (done.map Fall.pin)).run .debug e.pins
      = .ok () e'.pins) : Supplied T len q base e' := by
  -- each fall that was carried out is gone from the queue, so the room goes down with it
  have h_length : e.queue.events.length = done.length + e'.queue.events.length := by
    rw [h_split, List.length_append]
  refine ⟨h, by omega, RoomyPinBank.room_of_driveAll ?_ h_run⟩
  rw [List.length_map, ← Nat.add_assoc, ← h_length]
  exact RoomyPinBank.mono h_room h_now (Nat.le_refl _)

/-- Settling on the spot returns, and leaves room for what is to come. -/
theorem settle (h : OnTheSpot T len q base e) (h_sorted : q.Pairwise (· ≤ ·))
    (h_size : e.queue.events.length ≤ maxServos)
    (h_room : RoomyPinBank.Room e.clock.now (3 * maxServos) e.pins)
    (h_time : e.clock.now + ticksPerWrap < Width.bits64.size) :
    ∃ e₀, fallDue.run .debug e = .ok () e₀ ∧ Supplied T len q base e₀ ∧
      e₀.clock.now = e.clock.now := by
  -- the bank has room for three requests for each servo, of which the queue needs one
  have h_spare : Spare (e.queue.events.length + 2 * maxServos) e.queue.events.length e := by
    refine ⟨h.origin_le, RoomyPinBank.mono h_room (Nat.le_refl _) (by omega), ?_⟩
    rw [h.lag_eq]
    omega
  obtain ⟨⟨⟩, e₀, h_run, -⟩ := h_spare.fallDue
  obtain ⟨h_awaiting, done, h_split, h_done⟩ := h.settle h_sorted h_run
  have h_settled := settledNow_of_run_fallDue h.lag_eq h.match_down (h.sorted h_sorted) h_run
  have h_now : e₀.clock.now = e.clock.now := (h.toMidPeriod.of_settledNow h_settled).2.1
  exact ⟨e₀, h_run, .of_awaiting h_awaiting h_size (Nat.le_of_eq h_now.symm) h_spare.room h_split
    h_done, h_now⟩

theorem serve (h : Supplied T len q base e) (h_sorted : q.Pairwise (· ≤ ·))
    (h_run : (serveNext limit).run .debug e = .ok event e') :
    Supplied T len q base e' ∨ Over T len q base e' ∧ e'.clock.now = T + len := by
  cases h.toAwaiting.serve h_sorted h_run with
  | awaiting h_still done h_split h_pins =>
    have h_from := now_le_of_run_serveNext h.lag_eq h_run
    exact .inl (of_awaiting h_still h.size_le h_from h.room h_split h_pins)
  | ended h_over h_now => exact .inr ⟨h_over, h_now⟩

/-- **Running.** Up to the end of the period it returns. -/
theorem returns_run {ticks : Nat} (h : Supplied T len q base e) (h_sorted : q.Pairwise (· ≤ ·))
    (h_end : (e.clock.now + ticks : Nat) ≤ T + len)
    (h_time : e.clock.now + ticks + ticksPerWrap < Width.bits64.size) :
    (run ticks).Returns .debug e fun _ _ => True := by
  have h_fits : e.clock.now + ticks < Width.bits64.size :=
    Nat.lt_of_le_of_lt (Nat.le_add_right _ _) h_time
  refine .get_bind (.liftM_bind (Checked.run_add_of_lt h_fits .debug) ?_)
  -- the loop keeps the engine supplied, or stops at the end of the period
  refine (Action.Returns.repeatWhile (I := fun t : Engine (Bench (Journal P)) =>
    (Supplied T len q base t ∨ Over T len q base t ∧ t.clock.now = T + len) ∧
      t.clock.now ≤ e.clock.now + ticks) (fun t ⟨h_t, h_now⟩ => ?_)
    ⟨.inl h, Nat.le_add_right _ _⟩).mono fun _ _ _ _ => trivial
  -- the clock has not passed the limit yet
  have h_limit : max t.clock.now (e.clock.now + ticks) = e.clock.now + ticks :=
    Nat.max_eq_right h_now
  -- inside the period: there is room for what this event requests
  rcases h_t with h_t | ⟨h_over, h_over_now⟩
  · refine (returns_serveNext h_t.lag_eq h_t.origin_le (h_limit.symm ▸ h_time)
      fun _ => ⟨h_t.room, h_t.size_le⟩).mono fun event u h_run _ => ?_
    exact ⟨h_t.serve h_sorted h_run, h_limit ▸ (now_of_run_serveNext h_t.lag_eq h_run).2.1⟩
  · -- at the end of the period the limit is reached, and no event comes any more
    have h_next := t.clock.lt_eventAt
    refine (returns_serveNext h_over.lag_eq h_over.origin_le (h_limit.symm ▸ h_time)
      fun h_event => by omega).mono fun event u h_run _ => ?_
    have h_by := (now_of_run_serveNext h_over.lag_eq h_run).2.1
    have h_u := h_over.serve h_run
    have h_after := h_u.end_le
    exact ⟨.inr ⟨h_u, by omega⟩, h_limit ▸ h_by⟩

end Supplied

/-! ### The falls of a queue -/

/-- The engine carries out the falls `q` of the period that starts at `T` and has `len` ticks right
on time, after it made `n` requests: the first request about the pin of a fall is made when the time
of the fall has come, and nothing else is requested before the end of the period. Falls that are due
together are carried out by the one interrupt that comes then, in the order of their servos. -/
structure KeepsTimes (T : Int) (len : Nat) (q : List Fall) (n : Nat)
    (e : Engine (Bench (Journal P))) : Prop where
  first : ∀ f ∈ q, e.pins.firstDrive? n f.pin =
    if f.timeIn T len ≤ e.clock.now then some (f.driveIn T len) else none
  only : ∃ more, e.pins.drives.drop n =
      (q.filter (·.timeIn T len ≤ e.clock.now)).map (·.driveIn T len) ++ more ∧
    ∀ x ∈ more, T + len ≤ x.time
  tie : ∀ f ∈ q, ∀ g ∈ q, f.due = g.due → f.servo < g.servo →
    ∀ limit event e', (serveNext limit).run .debug e = .ok event e' →
      e.clock.now < f.timeIn T len → f.timeIn T len ≤ e'.clock.now → event = true ∧
        [f.driveIn T len, g.driveIn T len].Sublist (e'.pins.drives.drop e.pins.drives.length)

omit [LawfulPinBank P] [RoomyPinBank P] in
theorem keepsTimes_of_awaiting_or_over (h : Awaiting T len q base e ∨ Over T len q base e)
    (h_sorted : q.Pairwise (· ≤ ·)) (h_pins : (q.map Fall.pin).Nodup) :
    KeepsTimes T len q base.length e where
  first _ hf := firstDrive?_eq h h_pins hf
  -- only requests of the queue were made, followed by those after the period
  only := by
    rcases h with h | h
    · exact ⟨[], by rw [h.drives_eq, List.drop_left, List.append_nil], nofun⟩
    · obtain ⟨more, h_drives, h_more⟩ := h.drives_eq
      exact ⟨more, by rw [h_drives, List.append_assoc, List.drop_left], h_more⟩
  tie f hf g hg h_due h_servo limit event e' h_run h_after h_by := by
    -- different servos, so two different falls with one due time
    have h_ne : f ≠ g := fun h_same => Nat.ne_of_lt h_servo (congrArg Fall.servo h_same)
    have h_tie : f.timeIn T len = g.timeIn T len := by rw [Fall.timeIn, Fall.timeIn, h_due]
    exact sublist_drives_of_tie h h_sorted hf hg (.inr ⟨h_due, .inl h_servo⟩) h_ne h_tie h_after
      h_run h_by

/-- **Falls in any turn.** Take an engine without lag in the midst of the period that starts at
`T`, with any falls pending whose offsets are ahead, and settle it. While every event is then served
at once, the pin of each fall is lowered at `T` plus the offset, or at the end of the period if that
comes first, and not before. If there is room for the requests, the engine does run to the end of
the period. -/
theorem falls_in_any_turn (h : MidPeriod e) (h_start : T + e.seen = e.clock.now)
    (h_sorted : e.queue.events.Pairwise (· ≤ ·)) (h_pins : (e.queue.events.map Fall.pin).Nodup)
    (h_size : e.queue.size ≤ maxServos) (h_ahead : ∀ f ∈ e.queue.events, e.seen < f.due) :
    (∀ f ∈ e.queue.events,
      f.timeIn T e.config.periodTicks = T + (min f.due e.config.periodTicks : Nat)) ∧
    (∀ e₀ older e', fallDue.run .debug e = .ok () e₀ → GoesOn [] e₀ older e' →
      KeepsTimes T e.config.periodTicks e.queue.events e.pins.drives.length e') ∧
    (RoomyPinBank.Room e.clock.now (3 * maxServos) e.pins →
      T + e.config.periodTicks + ticksPerWrap < Width.bits64.size →
      ∃ e₀, fallDue.run .debug e = .ok () e₀ ∧
        ∀ ticks : Nat, e.clock.now + ticks ≤ T + e.config.periodTicks → ∃ older e',
          (run ticks).run .debug e₀ = .ok () e' ∧ GoesOn [] e₀ older e' ∧
            e'.clock.now = e.clock.now + ticks) := by
  -- nothing is due yet, so settling carries out no fall
  have h_spot : OnTheSpot T e.config.periodTicks e.queue.events e.pins.drives e :=
    { h with
      len_eq := rfl
      start_add_seen := h_start
      falls := ⟨[], rfl, nofun, (List.append_nil _).symm⟩
      not_overdue := fun f hf => Nat.le_of_lt (h_ahead f hf) }
  refine ⟨fun f hf => ?_, fun e₀ older e' h_settle h_goes => ?_, fun h_room h_time => ?_⟩
  · -- no fall is overdue, so its time is its due time cut at the end of the period
    have h_due := h_ahead f hf
    have h_seen := h.seen_lt
    rw [Fall.timeIn]
    omega
  · -- however the run was cut into events, each fall has its own time
    have h_awaiting := (h_spot.settle h_sorted h_settle).1
    exact keepsTimes_of_awaiting_or_over (awaiting_or_over_of_goesOn h_awaiting h_sorted h_goes)
      h_sorted h_pins
  · -- and there is such a run for every duration up to the end of the period
    have h_seen := h.seen_lt
    obtain ⟨e₀, h_settle, h_supplied, h_now⟩ :=
      Supplied.settle h_spot h_sorted h_size h_room (by omega)
    refine ⟨e₀, h_settle, fun ticks h_ticks => ?_⟩
    have h_end : (e₀.clock.now + ticks : Nat) ≤ T + e.config.periodTicks := by omega
    obtain ⟨⟨⟩, e', h_run, -⟩ := h_supplied.returns_run h_sorted h_end (by omega)
    obtain ⟨older, h_goes⟩ := servedOn_run ticks h_run []
    exact ⟨older, e', h_run, h_goes, h_now ▸ now_of_run h_supplied.lag_eq h_run⟩

/-- An engine in a period of three turns that began at tick 500, with two falls at the very start of
the second turn, one in the third turn, and one past the end of the period. -/
def threeTurns : Engine (Bench (Journal PinRecorder)) where
  board :=
    { clock := { now := 1500, origin := 500, running := true }
      pins := { pins := PinBank.prepareAll [2, 3, 4, 10] {} } }
  config := { wrapsPerPeriod := 3 }
  phase := .emitting
  queue := ⟨[⟨65536, 0, 2⟩, ⟨65536, 3, 4⟩, ⟨140000, 1, 3⟩, ⟨300000, 2, 10⟩]⟩

theorem run_fallDue_threeTurns : fallDue.run .debug threeTurns = .ok () threeTurns :=
  Action.run_eq_ok_of_result? (by decide +kernel)

theorem isSome_serveNext_threeTurns :
    ((serveNext 100000).result? .debug threeTurns).isSome = true := by decide +kernel

theorem falls_in_any_turn_threeTurns :
    (∃ e', (run 195608).run .debug threeTurns = .ok () e' ∧
      e'.pins.firstDrive? 0 2 = some ⟨66036, 2, false⟩ ∧
      e'.pins.firstDrive? 0 4 = some ⟨66036, 4, false⟩ ∧
      e'.pins.firstDrive? 0 3 = some ⟨140500, 3, false⟩ ∧
      e'.pins.firstDrive? 0 10 = some ⟨197108, 10, false⟩) ∧
    ∃ e', (serveNext 100000).run .debug threeTurns = .ok true e' ∧
      [⟨66036, 2, false⟩, ⟨66036, 4, false⟩].Sublist (e'.pins.drives.drop 0) := by
  have h_mid : MidPeriod threeTurns :=
    ⟨rfl, rfl, by decide, rfl, rfl, by decide, by decide⟩
  -- the bank was just prepared and nothing was counted yet
  have h_room : RoomyPinBank.Room threeTurns.clock.now (3 * maxServos) threeTurns.pins := by
    have h_new : RoomyPinBank.Room 1500 0 (PinBank.prepareAll [2, 3, 4, 10] ({} : PinRecorder)) :=
      RoomyPinBank.of_prepareAll (PinRecorder.hasRoom_new 1500)
    exact RoomyPinBank.of_faults (P := PinRecorder) h_new (by decide) (by decide)
  obtain ⟨-, h_served, h_returns⟩ :=
    falls_in_any_turn (T := 500) h_mid (by decide) (by decide) (by decide) (by decide) (by decide)
  obtain ⟨e₀, h_settle, h_returns⟩ := h_returns h_room (by decide)
  obtain ⟨-, rfl⟩ := EStateM.Result.ok.inj (run_fallDue_threeTurns.symm.trans h_settle)
  constructor
  · -- the four first requests are where the times of the four falls say
    obtain ⟨older, e', h_run, h_goes, h_now⟩ := h_returns 195608 (by decide)
    have h_first := (h_served _ older e' h_settle h_goes).first
    rw [h_now] at h_first
    refine ⟨e', h_run, ?_, ?_, ?_, ?_⟩
    · exact (h_first ⟨65536, 0, 2⟩ (by decide)).trans (by decide)
    · exact (h_first ⟨65536, 3, 4⟩ (by decide)).trans (by decide)
    · exact (h_first ⟨140000, 1, 3⟩ (by decide)).trans (by decide)
    · exact (h_first ⟨300000, 2, 10⟩ (by decide)).trans (by decide)
  · -- the two falls of one time are served by the same event
    have h_run := Action.run_eq_ok_of_result? (Option.some_get isSome_serveNext_threeTurns).symm
    have h_by : 66036 ≤ (Option.get _ isSome_serveNext_threeTurns).2.clock.now := by
      decide +kernel
    have h_tie := (h_served _ [] _ h_settle .refl).tie ⟨65536, 0, 2⟩ (by decide) ⟨65536, 3, 4⟩
      (by decide) rfl (by decide) _ _ _ h_run (by decide) h_by
    exact ⟨_, h_tie.1 ▸ h_run, h_tie.2⟩

end Engine

end ServoPulse
