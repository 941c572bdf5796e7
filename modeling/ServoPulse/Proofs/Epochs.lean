import Mathlib.Data.List.DropRight
import ServoPulse.Proofs.BenchTracking
import ServoPulse.Proofs.LevelChanges
import ServoPulse.Proofs.PeriodCounts

/-!
# Counting from an epoch

An `Epoch` is a moment from which times, periods and records are counted anew. One engine is
another one since an epoch (`Engine.Since`) when it shows the same but for what is counted: its
clock starts at zero there, and so does its count of periods, and its pins have recorded nothing
before. Where the first engine goes through a stretch of time, an interrupt or a shutdown without
overflow, the other one goes through the same (`tracks_since_onClock`, `tracks_since_interrupt`,
`tracks_since_shutDown`), and it stays the first one since the epoch.

The engine that counts from the epoch is the one with less behind it, so nothing overflows there
that does not overflow in the other one. Its pins may all be outputs from the beginning
(`PinState.Delayed.prepared`), since an engine raises the pins of its channels alone, which are
outputs in either of them.
-/

namespace ServoPulse

/-- A moment from which everything is counted anew. -/
structure Epoch where
  time : Nat
  /-- The periods begun before. -/
  periods : UInt32
  /-- The completed pulses that were kept. -/
  pulses : List Pulse
  /-- The level changes before. -/
  edges : List Edge

/-- The same pulse `s` ticks later. -/
def Pulse.delayed (s : Nat) (x : Pulse) : Pulse := { x with roseAt := x.roseAt + s }

/-- The same level change `s` ticks later. -/
def Edge.delayed (s : Nat) (x : Edge) : Edge := { x with time? := x.time?.map (· + s) }

/-! ### Clocks -/

namespace Clock

/-- The clock `c` shows what the clock `d` shows, at times later by `s`. -/
structure Delayed (s : Nat) (c d : Clock) : Prop where
  now_eq : c.now = d.now + s
  origin_eq : c.running = true → c.origin = d.origin + s
  running_eq : d.running = c.running
  compare_eq : d.compare = c.compare
  overflow_eq : d.overflowPending = c.overflowPending
  pending_eq : d.comparePending = c.comparePending

namespace Delayed

variable {s limit : Nat} {c d : Clock}

theorem ticks_eq (h : Delayed s c d) (hr : c.running = true) :
    c.now - c.origin = d.now - d.origin := by
  rw [h.now_eq, h.origin_eq hr, Nat.add_sub_add_right]

theorem overflowAt_eq (h : Delayed s c d) (hr : c.running = true) :
    c.overflowAt = d.overflowAt + s := by
  rw [overflowAt, overflowAt, count, count, h.ticks_eq hr, h.now_eq, Nat.add_right_comm]

theorem matchAt?_eq (h : Delayed s c d) (hr : c.running = true) :
    c.matchAt? = d.matchAt?.map (· + s) := by
  rw [matchAt?, matchAt?, h.ticks_eq hr, h.now_eq, h.compare_eq, Option.map_map]
  exact congrArg (Option.map · c.compare) (funext fun _ => Nat.add_right_comm _ _ _)

theorem eventAt_eq (h : Delayed s c d) (hr : c.running = true) : c.eventAt = d.eventAt + s := by
  rw [eventAt, eventAt, h.overflowAt_eq hr, h.matchAt?_eq hr]
  cases d.matchAt? with
  | none => rfl
  | some t => exact Nat.add_min_add_right _ _ _

/-- The clock that counts from the epoch has the more room. -/
theorem fits (h : Delayed s c d) (hc : c.Fits) : d.Fits := by
  -- what holds of the first clock because it runs holds of the second one, which runs as well
  have h_running {p : Prop} (h_p : c.running = true → p) (hr : d.running = true) : p :=
    h_p (h.running_eq ▸ hr)
  refine ⟨h_running fun hr => ?_, h_running fun hr => ?_, h_running fun hr t ht => ?_⟩
  · -- the origin is not after the present
    have h_le := hc.origin_le hr
    rw [h.now_eq, h.origin_eq hr] at h_le
    exact Nat.le_of_add_le_add_right h_le
  · -- the overflow of the later clock fits, and this one comes sooner
    exact Nat.lt_of_le_of_lt (Nat.le_add_right _ s) (h.overflowAt_eq hr ▸ hc.overflow_lt hr)
  · -- so does the match
    have ht' : t + s ∈ c.matchAt? := by
      rw [h.matchAt?_eq hr]
      exact Option.mem_map_of_mem _ ht
    exact Nat.lt_of_le_of_lt (Nat.le_add_right _ s) (hc.match_lt hr _ ht')

/-- **Jumps.** Both clocks come to the same event, or none comes before the limit. -/
theorem reach (h : Delayed s c d) (limit : Nat) :
    (d.reach limit).1 = (c.reach (limit + s)).1 ∧
      Delayed s (c.reach (limit + s)).2 (d.reach limit).2 := by
  -- an event that both clocks meet, at instants the same distance apart
  by_cases h_event : c.running = true ∧ c.eventAt ≤ limit + s
  · obtain ⟨hr, h_le⟩ := h_event
    have hr' : d.running = true := h.running_eq.trans hr
    have h_le' : d.eventAt ≤ limit := Nat.le_of_add_le_add_right (h.eventAt_eq hr ▸ h_le)
    have h_beq (t u : Nat) : (t + s == u + s) = (t == u) := by
      rw [Bool.eq_iff_iff, beq_iff_eq, beq_iff_eq, Nat.add_right_cancel_iff]
    rw [Clock.reach, Clock.reach, if_pos ⟨hr', h_le'⟩, if_pos ⟨hr, h_le⟩]
    -- each flag comes up when its own instant is that of the event
    refine ⟨rfl, h.eventAt_eq hr, fun _ => h.origin_eq hr, h.running_eq, h.compare_eq, ?_, ?_⟩
    · rw [h.overflow_eq, h.overflowAt_eq hr, h.eventAt_eq hr]
      simp only [Option.some_beq_some, h_beq]
    · rw [h.pending_eq, h.matchAt?_eq hr, h.eventAt_eq hr]
      cases d.matchAt? with
      | none => rfl
      | some t => simp only [Option.map_some, Option.some_beq_some, h_beq]
  · -- the limit comes first on both clocks
    have h_event' : ¬(d.running = true ∧ d.eventAt ≤ limit) := by
      rintro ⟨hr', h_le'⟩
      have hr : c.running = true := h.running_eq.symm.trans hr'
      exact h_event ⟨hr, h.eventAt_eq hr ▸ Nat.add_le_add_right h_le' s⟩
    rw [Clock.reach, Clock.reach, if_neg h_event', if_neg h_event]
    refine ⟨rfl, ?_, h.origin_eq, h.running_eq, h.compare_eq, h.overflow_eq, h.pending_eq⟩
    rw [h.now_eq]
    exact Nat.add_max_add_right _ _ _

theorem counter (h : Delayed s c d) : Checked.Tracks .debug (· = .debug) c.counter d.counter := by
  rintro n h_run q rfl
  by_cases hr : c.running = true
  · -- the difference to the origin is the same
    obtain ⟨h_le, rfl⟩ := (run_counter_debug_iff hr).1 h_run
    rw [h.now_eq, h.origin_eq hr] at h_le
    exact (run_counter_debug_iff (h.running_eq.trans hr)).2
      ⟨Nat.le_of_add_le_add_right h_le, congrArg Count.ofNat (h.ticks_eq hr).symm⟩
  · -- both counters are stopped, and show zero
    rw [Clock.counter, if_neg hr] at h_run
    rw [Clock.counter, h.running_eq, if_neg hr]
    exact h_run

/-- The time some ticks from now is as much later. -/
theorem after (h : Delayed s c d) {ticks : Nat} (h_run : (c.after ticks).run .debug = .ok limit) :
    ∃ limit', limit = limit' + s ∧ (d.after ticks).run .debug = .ok limit' := by
  obtain ⟨h_lt, rfl⟩ := Checked.run_add_debug_iff.1 h_run
  rw [h.now_eq, Nat.add_right_comm] at h_lt ⊢
  exact ⟨_, rfl, Checked.run_add_of_lt (Nat.lt_of_le_of_lt (Nat.le_add_right _ s) h_lt) .debug⟩

end Delayed

variable {s : Nat}

theorem tracks_delayed_advanceUntil (limit : Nat) :
    Action.Tracks (Delayed s) .debug (· = .debug) (advanceUntil (limit + s))
      (advanceUntil limit) := by
  rintro c d h event c' h_run
  obtain ⟨h_fits, h_reach⟩ := run_advanceUntil_debug_iff.1 h_run
  obtain ⟨h_event, h_delayed⟩ := h.reach limit
  rw [h_reach] at h_event h_delayed
  -- the debug run of one clock says that it fits, and with it the other
  refine ⟨_, fun q _ => ?_, h_delayed⟩
  rw [run_advanceUntil_of_fits (h.fits h_fits), h_event]

/-- What is done up to the time some ticks from now. -/
theorem Delayed.tracks_after_bind {σ τ α : Type} {R : σ → τ → Prop} {c d : Clock}
    {x : Nat → Action σ α} {y : Nat → Action τ α} (h : Delayed s c d) (ticks : Nat)
    (h_rest : ∀ limit, Action.Tracks R .debug (· = .debug) (x (limit + s)) (y limit)) :
    Action.Tracks R .debug (· = .debug) (liftM (c.after ticks) >>= x)
      (liftM (d.after ticks) >>= y) := by
  intro e t h_rel a e' h_run
  obtain ⟨limit, h_limit, h_run⟩ := Action.run_liftM_bind_eq_ok_iff.1 h_run
  obtain ⟨limit, rfl, h_limit'⟩ := h.after h_limit
  obtain ⟨t', h_all, h_rel'⟩ := h_rest limit h_rel h_run
  -- both sums are made in debug, where the smaller cannot overflow
  refine ⟨t', ?_, h_rel'⟩
  rintro q rfl
  exact Action.run_liftM_bind_eq_ok_iff.2 ⟨limit, h_limit', h_all _ rfl⟩

end Clock

/-! ### Recorded pins -/

/-- What a pin is doing, later by `s`. Of two pins that carry no pulse, the second one may be an
output already. -/
inductive PinState.Delayed (s : Nat) : PinState → PinState → Prop
  | unconfigured : Delayed s .unconfigured .unconfigured
  | prepared : Delayed s .unconfigured .low
  | low : Delayed s .low .low
  | high (roseAt : Nat) : Delayed s (.high (roseAt + s)) (.high roseAt)

namespace PinRecorder

/-- The pins `t` have recorded since the epoch what the pins `r` have; those of `r` with `ready` are
outputs. -/
structure Since (z : Epoch) (ready : Nat → Prop) (r t : PinRecorder) : Prop where
  state : ∀ pin, (r.state pin).Delayed z.time (t.state pin)
  output : ∀ pin, ready pin → r.Drivable pin
  pulses_eq : r.pulses = lastOf capacity (z.pulses ++ t.pulses.map (Pulse.delayed z.time))
  violations_le : t.violations ≤ r.violations

theorem lastOf_eq_reverse_take {α : Type} (n : Nat) (l : List α) :
    lastOf n l = (l.reverse.take n).reverse :=
  List.rtake_eq_reverse_take_reverse l n

theorem length_lastOf_le {α : Type} (n : Nat) (l : List α) : (lastOf n l).length ≤ n := by
  rw [lastOf, List.length_drop]
  omega

theorem lastOf_of_le {α : Type} {n : Nat} {l : List α} (h : l.length ≤ n) : lastOf n l = l := by
  rw [lastOf, Nat.sub_eq_zero_of_le h, List.drop_zero]

/-- What goes when too many entries are added goes in one go or in two. -/
theorem lastOf_lastOf_append {α : Type} (n : Nat) (l m : List α) :
    lastOf n (lastOf n l ++ m) = lastOf n (l ++ m) := by
  have h_min : min (n - m.length) n = n - m.length := Nat.min_eq_left (Nat.sub_le _ _)
  simp only [lastOf_eq_reverse_take, List.reverse_append, List.reverse_reverse, List.take_append,
    List.length_reverse, List.take_take, h_min]

theorem lastOf_append_lastOf {α : Type} (n : Nat) (l m : List α) :
    lastOf n (l ++ lastOf n m) = lastOf n (l ++ m) := by
  have h_sub : n - min n m.length = n - m.length := by omega
  simp only [lastOf_eq_reverse_take, List.reverse_append, List.reverse_reverse, List.take_append,
    List.length_take, List.length_reverse, List.take_take, Nat.min_self, h_sub]

theorem lastOf_map {α β : Type} (n : Nat) (f : α → β) (l : List α) :
    lastOf n (l.map f) = (lastOf n l).map f := by
  rw [lastOf, lastOf, List.length_map, List.map_drop]

namespace Since

variable {z : Epoch} {ready : Nat → Prop} {r t : PinRecorder}

theorem isHigh_eq (h : Since z ready r t) (pin : Nat) : t.isHigh pin = r.isHigh pin := by
  have h_state := h.state pin
  unfold isHigh
  cases h_r : r.state pin <;> cases h_t : t.state pin <;> rw [h_r, h_t] at h_state <;>
    first | rfl | cases h_state

/-- An eligible pin gets another state. -/
theorem setState (h : Since z ready r t) {pin : Nat} {x y : PinState} (h_pin : pin ∈ eligiblePins)
    (h_xy : x.Delayed z.time y) (h_x : x ≠ .unconfigured) :
    Since z ready (r.setState pin x) (t.setState pin y) where
  -- the driven pin has the new state, every other one its old state
  state other := by
    rw [state_setState_of_eligible h_pin, state_setState_of_eligible h_pin]
    split
    · exact h_xy
    · exact h.state other
  -- the pin was an output before, or the new state makes it one
  output other h_other := by
    refine ⟨(h.output other h_other).1, ?_⟩
    rw [isOutput_setState h_pin]
    split
    · exact bne_iff_ne.2 h_x
    · exact (h.output other h_other).2
  pulses_eq := h.pulses_eq
  violations_le := h.violations_le

theorem record (h : Since z ready r t) (pin roseAt width : Nat) :
    Since z ready (r.record ⟨pin, roseAt + z.time, width⟩) (t.record ⟨pin, roseAt, width⟩) where
  state := h.state
  output := h.output
  pulses_eq := by
    change lastOf capacity (r.pulses ++ _) =
      lastOf capacity (z.pulses ++ (lastOf capacity (t.pulses ++ _)).map _)
    -- the last records of a list whose older ones are cut are those of the whole
    rw [h.pulses_eq, lastOf_lastOf_append, ← lastOf_map, lastOf_append_lastOf, List.map_append,
      List.append_assoc]
    rfl
  violations_le := h.violations_le

theorem count (h : Since z ready r t) {m n : Nat} (h_le : n ≤ m) :
    Since z ready { r with violations := m } { t with violations := n } :=
  ⟨h.state, h.output, h.pulses_eq, h_le⟩

/-- A violation in both banks, or in the first one only. -/
theorem tracks_violate :
    Action.Tracks (Since z ready) .debug (· = .debug) violate violate ∧
      Action.Tracks (Since z ready) .debug (· = .debug) violate (pure ()) := by
  constructor
  · -- counted by both banks, where the smaller count cannot overflow either
    rintro r t h ⟨⟩ r' h_run
    obtain ⟨n, h_n, h_run⟩ := Action.run_liftM_bind_eq_ok_iff.1 h_run
    obtain ⟨h_lt, rfl⟩ := Checked.run_add_debug_iff.1 h_n
    obtain rfl := Action.run_modify_eq_ok_iff.1 h_run
    have h_le : t.violations + 1 ≤ r.violations + 1 := Nat.succ_le_succ h.violations_le
    refine ⟨_, fun q _ => ?_, h.count h_le⟩
    exact Action.run_liftM_bind_eq_ok_iff.2
      ⟨_, Checked.run_add_of_lt (Nat.lt_of_le_of_lt h_le h_lt) q, rfl⟩
  · -- counted by the first bank only, whose count is the larger
    rintro r t h ⟨⟩ r' h_run
    obtain ⟨n, h_n, h_run⟩ := Action.run_liftM_bind_eq_ok_iff.1 h_run
    obtain ⟨-, rfl⟩ := Checked.run_add_debug_iff.1 h_n
    obtain rfl := Action.run_modify_eq_ok_iff.1 h_run
    exact ⟨t, fun q _ => rfl, h.count (Nat.le_succ_of_le h.violations_le)⟩

theorem tracks_fall {pin : Nat} (now : Nat) (h_pin : pin ∈ eligiblePins) :
    Action.Tracks (Since z ready) .debug (· = .debug) (fall (now + z.time) pin) (fall now pin) := by
  refine .get_bind fun r t h => ?_
  have h_state := h.state pin
  generalize r.state pin = x at h_state ⊢
  generalize t.state pin = y at h_state ⊢
  cases h_state with
  | unconfigured => exact tracks_violate.1
  -- only the first bank takes the fall of a pin that is not an output for a violation
  | prepared => exact tracks_violate.2
  | low => exact .pure _
  | high roseAt =>
    -- both instants of the pulse are put off alike, so its width is the same
    have h_width : Checked.Tracks .debug (· = .debug)
        (Checked.sub .bits64 (now + z.time) (roseAt + z.time))
        (Checked.sub .bits64 now roseAt) := by
      rintro n h_run q rfl
      obtain ⟨h_le, rfl⟩ := Checked.run_sub_debug_iff.1 h_run
      rw [Nat.add_sub_add_right]
      exact Checked.run_sub_debug_iff.2 ⟨Nat.le_of_add_le_add_right h_le, rfl⟩
    refine .bind (.modify fun r t h => h.setState h_pin .low nofun) fun _ => ?_
    exact .liftM_bind h_width fun width _ => .modify fun r t h => h.record pin roseAt width

theorem tracks_rise {pin : Nat} (now : Nat) (h_pin : pin ∈ eligiblePins) (h_ready : ready pin) :
    Action.Tracks (Since z ready) .debug (· = .debug) (rise (now + z.time) pin) (rise now pin) := by
  refine .get_bind fun r t h => ?_
  have h_state := h.state pin
  -- a rise of a pin that is an output in the second bank only would tell the banks apart
  have h_output : r.state pin ≠ .unconfigured := bne_iff_ne.1 (h.output pin h_ready).2
  generalize r.state pin = x at h_state h_output ⊢
  generalize t.state pin = y at h_state ⊢
  cases h_state with
  | unconfigured => exact absurd rfl h_output
  | prepared => exact absurd rfl h_output
  | low =>
    -- a new pulse, which begins later by the distance of the two runs
    exact .modify fun r t h => h.setState h_pin (.high now) nofun
  | high =>
    -- a pin that is high already makes both banks complain
    exact tracks_violate.1

/-- **Requests.** A pin is driven in both banks. It is raised only if it is an output. -/
theorem tracks_drive {level : Bool} {pin : Nat} (now : Nat) (h_ready : level = true → ready pin) :
    Action.Tracks (Since z ready) .debug (· = .debug)
      (PinBank.drive (P := PinRecorder) level (now + z.time) pin)
      (PinBank.drive level now pin) := by
  rw [drive_eq, drive_eq]
  -- a pin that is not eligible is refused by both
  by_cases h_pin : pin ∈ eligiblePins
  · rw [if_pos h_pin, if_pos h_pin]
    cases level with
    | true => exact tracks_rise now h_pin (h_ready rfl)
    | false => exact tracks_fall now h_pin
  · rw [if_neg h_pin, if_neg h_pin]
    exact .pure ()

theorem configureOutput (h : Since z ready r t) (pin : Nat) :
    Since z ready (PinBank.configureOutput pin r) (PinBank.configureOutput pin t) := by
  -- a prepared pin is a low output in both banks
  by_cases h_pin : pin ∈ eligiblePins
  · have h_low := h.setState h_pin .low nofun
    have h_eq (r : PinRecorder) : PinBank.configureOutput pin r = r.setState pin .low :=
      if_pos h_pin
    rwa [h_eq, h_eq]
  · -- nothing is done about any other pin
    have h_eq (r : PinRecorder) : PinBank.configureOutput pin r = r := if_neg h_pin
    rwa [h_eq, h_eq]

end Since

end PinRecorder

namespace Scope

/-- The scope `t` has seen since the epoch what the scope `s` has. -/
structure Since (z : Epoch) (ready : Nat → Prop) (s t : Scope PinRecorder) : Prop where
  pins : PinRecorder.Since z ready s.pins t.pins
  edges_eq : s.edges = z.edges ++ t.edges.map (Edge.delayed z.time)

variable {z : Epoch} {ready : Nat → Prop} {s t : Scope PinRecorder}

theorem Since.see (h : Since z ready s t) {r u : PinRecorder}
    (h_pins : PinRecorder.Since z ready r u) (time? : Option Nat) (pin : Nat) :
    Since z ready (s.see (time?.map (· + z.time)) pin r) (t.see time? pin u) where
  pins := h_pins
  edges_eq := by
    -- the edge is recorded by both scopes, as the levels agree before and after
    have h_new : PinBank.isHigh u pin = PinBank.isHigh r pin := h_pins.isHigh_eq pin
    have h_old : PinBank.isHigh t.pins pin = PinBank.isHigh s.pins pin := h.pins.isHigh_eq pin
    unfold Scope.see
    rw [h_new, h_old]
    split
    · exact h.edges_eq
    · rw [h.edges_eq, List.map_append, List.append_assoc]
      rfl

theorem Since.tracks_drive {level : Bool} {pin : Nat} (now : Nat)
    (h_ready : level = true → ready pin) :
    Action.Tracks (Since z ready) .debug (· = .debug)
      (PinBank.drive (P := Scope PinRecorder) level (now + z.time) pin)
      (PinBank.drive level now pin) := by
  have h_drive := PinRecorder.Since.tracks_drive (z := z) now h_ready
  have h_see {s t : Scope PinRecorder} {r u : PinRecorder} (h : Since z ready s t)
      (h_pins : PinRecorder.Since z ready r u) := h.see h_pins (some now) pin
  -- the scope only looks on, so each call is that of its bank with the edge added
  cases level with
  | true => exact h_drive.zoom (fun _ _ h => h.pins) fun _ _ _ _ => h_see
  | false => exact h_drive.zoom (fun _ _ h => h.pins) fun _ _ _ _ => h_see

/-- Preparing pins makes the same ones outputs in both. -/
theorem Since.prepareAll (h : Since z ready s t) (pins : List Nat) :
    Since z ready (PinBank.prepareAll pins s) (PinBank.prepareAll pins t) := by
  induction pins generalizing s t with
  | nil => exact h
  | cons pin pins ih =>
    -- the pin is prepared by both banks or by neither
    have h_level : PinBank.isHigh t pin = PinBank.isHigh s pin := h.pins.isHigh_eq pin
    rw [PinBank.prepareAll_cons, PinBank.prepareAll_cons, h_level]
    split
    · exact ih h
    · exact ih (h.see (h.pins.configureOutput pin) none pin)

end Scope

/-! ### Benches -/

namespace Bench

/-- The bench `c` shows since the epoch what the bench `b` does. -/
structure Since (z : Epoch) (ready : Nat → Prop) (b c : Bench (Scope PinRecorder)) : Prop where
  clock : Clock.Delayed z.time b.clock c.clock
  lag_eq : c.lag = b.lag
  pins : Scope.Since z ready b.pins c.pins

namespace Since

variable {z : Epoch} {ready : Nat → Prop} {b c : Bench (Scope PinRecorder)}

theorem tracks_onClock {α : Type} {x y : Action Clock α}
    (h : Action.Tracks (Clock.Delayed z.time) .debug (· = .debug) x y) :
    Action.Tracks (Since z ready) .debug (· = .debug) (onClock x) (onClock y) :=
  h.zoom (fun _ _ h => h.clock) fun _ _ _ _ h h_clock => ⟨h_clock, h.lag_eq, h.pins⟩

theorem tracks_drive (level : Bool) {pin : Nat} (h_ready : level = true → ready pin) :
    Action.Tracks (Since z ready) .debug (· = .debug)
      (do onPins (PinBank.drive level (← get).clock.now pin))
      (do onPins (PinBank.drive level (← get).clock.now pin)) := by
  refine .get_bind fun b c h => ?_
  rw [h.clock.now_eq]
  refine (Scope.Since.tracks_drive c.clock.now h_ready).zoom (fun _ _ h => h.pins) ?_
  exact fun _ _ _ _ h h_pins => ⟨h.clock, h.lag_eq, h_pins⟩

theorem tracks_armCompare (value : Count) :
    Action.Tracks (Since z ready) .debug (· = .debug) (armCompare value) (armCompare value) := by
  refine .bind (.modify fun b c h => ?_) fun _ => .get_bind fun b c h => ?_
  · obtain ⟨h_now, h_origin, h_running, -, h_overflow, h_pending⟩ := h.clock
    exact ⟨⟨h_now, h_origin, h_running, rfl, h_overflow, h_pending⟩, h.lag_eq, h.pins⟩
  · rw [h.lag_eq]
    refine h.clock.tracks_after_bind b.lag fun limit => tracks_onClock ?_
    exact .repeatWhile (Clock.tracks_delayed_advanceUntil limit) _

/-- **Falls.** Where the second bench is the first one since the epoch, what falls ask of it comes
to what they ask of the first one, and it is that bench again. -/
theorem fallsTrack : FallsTrack (Since z ready) .debug (· = .debug) where
  counter h := h.clock.counter
  armCompare := tracks_armCompare
  disarmCompare h := by
    obtain ⟨h_now, h_origin, h_running, -, h_overflow, -⟩ := h.clock
    exact ⟨⟨h_now, h_origin, h_running, rfl, h_overflow, rfl⟩, h.lag_eq, h.pins⟩
  setLow pin := tracks_drive false fun h_level => Bool.noConfusion h_level

theorem tracks_setHigh (pin : Nat) (h_ready : ready pin) :
    Action.Tracks (Since z ready) .debug (· = .debug)
      (Board.setHigh pin : Action (Bench (Scope PinRecorder)) Unit) (Board.setHigh pin) :=
  tracks_drive true fun _ => h_ready

theorem stopTimer (h : Since z ready b c) :
    Since z ready (Board.stopTimer b) (Board.stopTimer c) := by
  refine ⟨⟨h.clock.now_eq, fun h_on => Bool.noConfusion h_on, rfl, rfl, rfl, rfl⟩, h.lag_eq, h.pins⟩

theorem takeOverflow (h : Since z ready b c) :
    (Board.takeOverflow c).1 = (Board.takeOverflow b).1 ∧
      Since z ready (Board.takeOverflow b).2 (Board.takeOverflow c).2 := by
  obtain ⟨h_now, h_origin, h_running, h_compare, h_overflow, h_pending⟩ := h.clock
  exact ⟨h_overflow, ⟨h_now, h_origin, h_running, h_compare, rfl, h_pending⟩, h.lag_eq, h.pins⟩

theorem takeCompare (h : Since z ready b c) :
    (Board.takeCompare c).1 = (Board.takeCompare b).1 ∧
      Since z ready (Board.takeCompare b).2 (Board.takeCompare c).2 := by
  obtain ⟨h_now, h_origin, h_running, h_compare, h_overflow, h_pending⟩ := h.clock
  exact ⟨h_pending, ⟨h_now, h_origin, h_running, h_compare, h_overflow, rfl⟩, h.lag_eq, h.pins⟩

/-- Which pins are outputs may be known in another way. -/
theorem of_outputs {ready' : Nat → Prop} (h : Since z ready b c)
    (h_out : ∀ pin, ready' pin → b.pins.pins.Drivable pin) : Since z ready' b c where
  clock := h.clock
  lag_eq := h.lag_eq
  pins := by
    obtain ⟨h_state, -, h_pulses, h_violations⟩ := h.pins.pins
    exact ⟨⟨h_state, h_out, h_pulses, h_violations⟩, h.pins.edges_eq⟩

end Since

end Bench

/-! ### Engines -/

namespace Engine

variable {z : Epoch} {e t : Engine (Bench (Scope PinRecorder))}

/-- The pin of some channel. -/
def OnPin (e : Engine (Bench (Scope PinRecorder))) (pin : Nat) : Prop :=
  pin ∈ e.table.active.map Channel.pin

/-- The engine `t` is the engine `e` since the epoch: the same but for what is counted, with the
pins of its channels made outputs. -/
def Since (z : Epoch) (e t : Engine (Bench (Scope PinRecorder))) : Prop :=
  ∃ u, OnBoards (Bench.Since z e.OnPin) e u ∧ Recounted (-z.periods) u t

/-- What does the same on both benches, and from every count of periods, does the same since the
epoch. -/
theorem tracks_since {α : Type} {x y : Action (Engine (Bench (Scope PinRecorder))) α}
    (h : ∀ ready : Nat → Prop, Action.Tracks (fun e t => OnBoards (Bench.Since z ready) e t ∧
      ∀ c ∈ e.table.active, ready c.pin) .debug (· = .debug) x y)
    (h_count : Action.Tracks (Recounted (-z.periods)) .debug (· = .debug) y y) :
    Action.Tracks (Since z) .debug (· = .debug) x y := by
  rintro e t ⟨u, h_boards, h_recounted⟩ a e' h_run
  -- a pin with a channel is ready, and no other pin is raised
  have h_ready : ∀ c ∈ e.table.active, e.OnPin c.pin := fun c hc => List.mem_map_of_mem hc
  obtain ⟨u', h_all, ⟨c', h_since, rfl⟩, h_ready'⟩ := h e.OnPin ⟨h_boards, h_ready⟩ h_run
  -- the counts of periods differ by a constant, which each of the calls leaves
  obtain ⟨t', h_all', h_recounted'⟩ := h_count h_recounted (h_all _ rfl)
  refine ⟨t', h_all', e'.onto c', ⟨c', h_since.of_outputs fun pin h_pin => ?_, rfl⟩, h_recounted'⟩
  -- the pins that have channels in the end are among those that had channels before
  obtain ⟨c, hc, rfl⟩ := List.mem_map.1 h_pin
  exact h_since.pins.pins.output c.pin (h_ready' c hc)

/-- **Time.** What clocks do alike that differ by the time of the epoch, engines do alike since the
epoch, as a clock holds no channels. -/
theorem tracks_since_onClock {α : Type} {x y : Action Clock α}
    (h : Action.Tracks (Clock.Delayed z.time) .debug (· = .debug) x y) :
    Action.Tracks (Since z) .debug (· = .debug) (onClock x) (onClock y) := by
  refine tracks_since (fun ready => ?_) (tracks_recount_onBoard _)
  refine (tracks_onBoard (Bench.Since.tracks_onClock h)).keeping fun e a e' h_ready h_run => ?_
  rwa [(leaves_table_onBoard _ e).of_run h_run]

/-- **Interrupts.** An interrupt does the same since the epoch. -/
theorem tracks_since_interrupt :
    Action.Tracks (Since z) .debug (· = .debug) interrupt interrupt :=
  tracks_since (fun _ => Bench.Since.fallsTrack.interrupt Bench.Since.tracks_setHigh
    Bench.Since.takeOverflow Bench.Since.takeCompare) tracks_recount_interrupt

/-- **Shutdowns.** A shutdown does the same since the epoch: it lowers the pins of the same
channels, and the timers are off in the end. -/
theorem tracks_since_shutDown :
    Action.Tracks (Since z) .debug (· = .debug) shutDown shutDown := by
  refine tracks_since (fun ready => ?_) tracks_recount_shutDown
  refine (tracks_shutDown (R := Bench.Since z ready) Bench.Since.stopTimer
    Bench.Since.fallsTrack.setLow).keeping fun e a e' h_ready h_run => ?_
  obtain ⟨pins, -, rfl⟩ := run_shutDown_eq_ok h_run
  exact h_ready

/-- What is done up to the time some ticks from now. -/
theorem tracks_since_after_bind {α : Type}
    {x y : Nat → Action (Engine (Bench (Scope PinRecorder))) α} (ticks : Nat)
    (h : ∀ limit, Action.Tracks (Since z) .debug (· = .debug) (x (limit + z.time)) (y limit)) :
    Action.Tracks (Since z) .debug (· = .debug) (do x (← (← get).after ticks))
      (do y (← (← get).after ticks)) := by
  refine .get_bind ?_
  rintro e _ ⟨u, ⟨c, h_since, rfl⟩, rfl⟩
  exact h_since.clock.tracks_after_bind ticks h

end Engine

end ServoPulse
