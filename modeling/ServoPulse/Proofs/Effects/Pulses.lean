import ServoPulse.Proofs.Levels
import ServoPulse.Proofs.Passing
import ServoPulse.Engine.Pulses

/-!
# Effects of the interrupt

What the interrupt side of an engine on a simulated board does, one statement for each
function. Everything that happens to the pins is a list of requests at one instant
(`PinBank.driveAll`), so these statements need no law of the bank.

The loop that settles the queue is used through `settled_of_run_fallDue` alone: a property
that survives lowering a due fall and arming the compare channel (`SettleStable`) holds when
the loop ends, and `Settled` lists the three ways in which it ends.
-/

namespace ServoPulse

/-- The fall that ends the pulse of a channel in this period, if it has one. -/
def Channel.fall? (servo : Nat) (c : Channel) : Option Fall :=
  if c.position ≠ 0 then some ⟨c.position, servo, c.pin⟩ else none

/-- The falls that end the pulses of some channels with their servo numbers. -/
def fallsOf (channels : List (Channel × Nat)) : List Fall :=
  channels.filterMap fun c => c.1.fall? c.2

/-- The falls of one period with the channels as they stand, in servo order. -/
def ChannelTable.falls (t : ChannelTable) : List Fall := fallsOf t.active.zipIdx

/-- The queue with more falls put in one after the other. -/
def FallQueue.insertAll (falls events : List Fall) : List Fall :=
  falls.foldl (fun events f => FallQueue.insert f events) events

namespace FallQueue

theorem perm_insertAll (falls events : List Fall) :
    (insertAll falls events).Perm (falls ++ events) := by
  induction falls generalizing events with
  | nil => exact .refl _
  | cons f falls ih =>
    refine (ih (insert f events)).trans ?_
    exact ((perm_insert f events).append_left falls).trans List.perm_middle

theorem pairwise_insertAll {falls events : List Fall} (h : events.Pairwise (· ≤ ·)) :
    (insertAll falls events).Pairwise (· ≤ ·) := by
  induction falls generalizing events with
  | nil => exact h
  | cons f falls ih => exact ih (pairwise_insert h)

end FallQueue

theorem ChannelTable.length_active_le (t : ChannelTable) : t.active.length ≤ maxServos := by
  rw [active, List.length_take, Vector.length_toList]
  exact Nat.min_le_right _ _

theorem fallsOf_cons_none {c : Channel × Nat} {channels : List (Channel × Nat)}
    (h : c.1.fall? c.2 = none) : fallsOf (c :: channels) = fallsOf channels :=
  List.filterMap_cons_none h

theorem fallsOf_cons_some {c : Channel × Nat} {channels : List (Channel × Nat)} {f : Fall}
    (h : c.1.fall? c.2 = some f) : fallsOf (c :: channels) = f :: fallsOf channels :=
  List.filterMap_cons_some h

theorem mem_fallsOf {channels : List (Channel × Nat)} {f : Fall} :
    f ∈ fallsOf channels ↔
      ∃ c servo, (c, servo) ∈ channels ∧ c.position ≠ 0 ∧ f = ⟨c.position, servo, c.pin⟩ := by
  simp only [fallsOf, Channel.fall?, List.mem_filterMap, Option.ite_none_right_eq_some,
    Option.some.injEq, Prod.exists]
  exact ⟨fun ⟨c, n, h, hc, hf⟩ => ⟨c, n, h, hc, hf.symm⟩,
    fun ⟨c, n, h, hc, hf⟩ => ⟨c, n, h, hc, hf.symm⟩⟩

theorem ChannelTable.mem_falls {t : ChannelTable} {f : Fall} :
    f ∈ t.falls ↔ ∃ c servo, t.active[servo]? = some c ∧ c.position ≠ 0 ∧
      f = ⟨c.position, servo, c.pin⟩ := by
  simp only [falls, mem_fallsOf, List.mk_mem_zipIdx_iff_getElem?]

/-- Every pulsing channel has its fall. -/
theorem ChannelTable.exists_fall {t : ChannelTable} {c : Channel} (hc : c ∈ t.active)
    (h : c.position ≠ 0) : ∃ f ∈ t.falls, f.due = c.position ∧ f.pin = c.pin := by
  obtain ⟨servo, h_servo⟩ := List.mem_iff_getElem?.1 hc
  exact ⟨_, mem_falls.2 ⟨c, servo, h_servo, h, rfl⟩, rfl, rfl⟩

namespace Engine

variable {P : Type} {p : Profile} {e e' : Engine (Bench P)}

/-- The clock of the board. -/
abbrev clock (e : Engine (Bench P)) : Clock := e.board.clock

/-- The pins of the board. -/
abbrev pins (e : Engine (Bench P)) : P := e.board.pins

/-- The engine with the pins in another state. -/
def withPins (e : Engine (Bench P)) (pins : P) : Engine (Bench P) :=
  { e with board := { e.board with pins } }

/-- The engine with the clock in another state. -/
def withClock (e : Engine (Bench P)) (clock : Clock) : Engine (Bench P) :=
  { e with board := { e.board with clock } }

/-- The counter as it reads now. -/
def shown (e : Engine (Bench P)) : Nat := if e.clock.running then e.clock.count else 0

/-- Ticks since the period started, as far as the engine can tell: by the turns it has
counted and by the counter. -/
def seen (e : Engine (Bench P)) : Nat := e.wrap * ticksPerWrap + e.shown

theorem seen_of_running (h : e.clock.running = true) :
    e.seen = e.wrap * ticksPerWrap + e.clock.count := by
  rw [seen, shown, if_pos h]

variable [PinBank P]

theorem run_elapsed_debug {n : Nat} (h : e.elapsed.run .debug = .ok n) :
    n = e.seen ∧ (e.clock.running = true → e.clock.origin ≤ e.clock.now) := by
  obtain ⟨count, h_count, rfl⟩ := Checked.run_map_eq_ok_iff.1 h
  change e.clock.counter.run .debug = .ok count at h_count
  -- a running counter reads the difference to the origin, which must not be negative
  by_cases hr : e.clock.running = true
  · obtain ⟨h_le, rfl⟩ := (Clock.run_counter_debug_iff hr).1 h_count
    exact ⟨by rw [seen, shown, if_pos hr]; rfl, fun _ => h_le⟩
  · -- a stopped counter shows zero
    rw [Clock.counter, if_neg hr] at h_count
    obtain rfl := Except.ok.inj h_count
    exact ⟨by rw [seen, shown, if_neg hr]; rfl, fun h_run => absurd h_run hr⟩

/-! ### Pins -/

omit [PinBank P] in
/-- Driving one pin of the board, as a request to its bank. -/
theorem run_onPins_eq_ok_iff {x : Action P Unit} :
    (onBoard (Bench.onPins x)).run p e = .ok () e' ↔
      ∃ pins, x.run p e.pins = .ok () pins ∧ e.withPins pins = e' := by
  rw [onBoard, Action.run_zoom_eq_ok_iff]
  simp only [Bench.onPins, Action.run_zoom_eq_ok_iff]
  exact ⟨fun ⟨_, ⟨pins, h, rfl⟩, h_eq⟩ => ⟨pins, h, h_eq⟩,
    fun ⟨pins, h, h_eq⟩ => ⟨_, ⟨pins, h, rfl⟩, h_eq⟩⟩

theorem run_setHigh_eq_ok_iff {pin : Nat} :
    (onBoard (Board.setHigh pin)).run p e = .ok () e' ↔
      ∃ pins, (PinBank.drive true e.clock.now pin).run p e.pins = .ok () pins ∧
        e.withPins pins = e' := by
  change (onBoard (Bench.onPins (PinBank.setHigh e.clock.now pin))).run p e = _ ↔ _
  exact run_onPins_eq_ok_iff

theorem run_setLow_eq_ok_iff {pin : Nat} :
    (onBoard (Board.setLow pin)).run p e = .ok () e' ↔
      ∃ pins, (PinBank.drive false e.clock.now pin).run p e.pins = .ok () pins ∧
        e.withPins pins = e' := by
  change (onBoard (Bench.onPins (PinBank.setLow e.clock.now pin))).run p e = _ ↔ _
  exact run_onPins_eq_ok_iff

theorem run_lower_eq_ok_iff {f : Fall} {rest : List Fall} :
    (lower f rest).run p e = .ok () e' ↔
      ∃ pins, (PinBank.drive false e.clock.now f.pin).run p e.pins = .ok () pins ∧
        { e.withPins pins with queue := ⟨rest⟩ } = e' := by
  rw [lower, Action.run_modify_bind]
  exact run_setLow_eq_ok_iff (e := { e with queue := ⟨rest⟩ })

/-- Lowering channel by channel. -/
theorem run_lowerEach_eq_ok {channels : List Channel}
    (h : (channels.forM fun c => onBoard (Board.setLow c.pin)).run p e = .ok () e') :
    ∃ pins, (PinBank.driveAll false e.clock.now (channels.map Channel.pin)).run p e.pins
      = .ok () pins ∧ e' = e.withPins pins := by
  -- induction on the channels, each one pin to lower
  induction channels generalizing e with
  | nil =>
    obtain rfl := Action.run_forM_nil_eq_ok_iff.1 h
    exact ⟨e.pins, rfl, rfl⟩
  | cons c channels ih =>
    obtain ⟨t, h_first, h_rest⟩ := Action.run_forM_cons_eq_ok_iff.1 h
    obtain ⟨mid, h_mid, rfl⟩ := run_setLow_eq_ok_iff.1 h_first
    obtain ⟨pins, h_pins, rfl⟩ := ih h_rest
    exact ⟨pins, Action.run_forM_cons_eq_ok_iff.2 ⟨mid, h_mid, h_pins⟩, rfl⟩

/-- Carrying out all pending falls. -/
theorem run_lowerAll_eq_ok {events : List Fall} (h_queue : e.queue = ⟨events⟩)
    (h : (lowerAll events).run p e = .ok () e') :
    ∃ pins, (PinBank.driveAll false e.clock.now (events.map Fall.pin)).run p e.pins
      = .ok () pins ∧ e' = { e.withPins pins with queue := {} } := by
  -- induction on the queue, whose pins are lowered in order
  induction events generalizing e with
  | nil =>
    obtain ⟨-, rfl⟩ := Action.run_pure_eq_ok_iff.1 h
    refine ⟨e.pins, rfl, ?_⟩
    rw [withPins, ← h_queue]
  | cons f rest ih =>
    obtain ⟨⟨⟩, t, h_first, h_rest⟩ := Action.run_bind_eq_ok_iff.1 h
    obtain ⟨mid, h_mid, rfl⟩ := run_lower_eq_ok_iff.1 h_first
    obtain ⟨pins, h_pins, rfl⟩ := ih rfl h_rest
    exact ⟨pins, Action.run_forM_cons_eq_ok_iff.2 ⟨mid, h_mid, h_pins⟩, rfl⟩

/-! ### The start of a period -/

/-- Raising one channel, with room on the queue for its fall. -/
theorem run_raise_eq_ok {c : Channel} {servo : Nat} (h_room : e.queue.size < maxServos)
    (h : (raise servo c).run p e = .ok () e') :
    c.fall? servo = none ∧ e' = e ∨ ∃ f pins, c.fall? servo = some f ∧
      (PinBank.drive true e.clock.now f.pin).run p e.pins = .ok () pins ∧
      e' = { e.withPins pins with queue := ⟨FallQueue.insert f e.queue.events⟩ } := by
  rw [raise] at h
  -- a position of zero makes no pulse
  by_cases h_zero : c.position ≠ 0
  · rw [if_pos h_zero, Action.run_get_bind, FallQueue.push, if_pos h_room] at h
    obtain ⟨pins, h_pins, rfl⟩ := run_setHigh_eq_ok_iff.1 h
    exact .inr ⟨_, pins, if_pos h_zero, h_pins, rfl⟩
  · rw [if_neg h_zero] at h
    obtain ⟨-, rfl⟩ := Action.run_pure_eq_ok_iff.1 h
    exact .inl ⟨if_neg h_zero, rfl⟩

theorem run_raiseEach_eq_ok {channels : List (Channel × Nat)}
    (h_room : e.queue.size + channels.length ≤ maxServos)
    (h : (channels.forM fun (c, servo) => raise servo c).run p e = .ok () e') :
    ∃ pins, (PinBank.driveAll true e.clock.now ((fallsOf channels).map Fall.pin)).run p e.pins
      = .ok () pins ∧
      e' = { e.withPins pins with
        queue := ⟨FallQueue.insertAll (fallsOf channels) e.queue.events⟩ } := by
  -- induction on the channels, with room in the queue for those still to come
  induction channels generalizing e with
  | nil =>
    obtain rfl := Action.run_forM_nil_eq_ok_iff.1 h
    exact ⟨e.pins, rfl, rfl⟩
  | cons c channels ih =>
    obtain ⟨t, h_first, h_rest⟩ := Action.run_forM_cons_eq_ok_iff.1 h
    rw [List.length_cons] at h_room
    rcases run_raise_eq_ok (by omega) h_first with ⟨h_none, rfl⟩ | ⟨f, mid, h_some, h_mid, rfl⟩
    · -- without a pulse neither a pin nor the queue changes
      obtain ⟨pins, h_pins, rfl⟩ := ih (by omega) h_rest
      rw [fallsOf_cons_none h_none]
      exact ⟨pins, h_pins, rfl⟩
    · -- one place of the room is used up
      have h_size : FallQueue.size ⟨FallQueue.insert f e.queue.events⟩ + channels.length
          ≤ maxServos := by
        rw [FallQueue.size] at *
        rw [FallQueue.length_insert]
        omega
      obtain ⟨pins, h_pins, rfl⟩ := ih h_size h_rest
      rw [fallsOf_cons_some h_some]
      exact ⟨pins, Action.run_forM_cons_eq_ok_iff.2 ⟨mid, h_mid, h_pins⟩, rfl⟩

/-- **The start of a period.** The pins of the left-over falls go low and the pins of the
new ones high, and every new fall finds room on the queue. -/
theorem run_beginPeriod_eq_ok (h : beginPeriod.run p e = .ok () e') :
    ∃ low high,
      (PinBank.driveAll false e.clock.now (e.queue.events.map Fall.pin)).run p e.pins
        = .ok () low ∧
      (PinBank.driveAll true e.clock.now (e.table.step.falls.map Fall.pin)).run p low
        = .ok () high ∧
      e' = { e.withPins high with
        moving := e.table.anyMoving
        table := e.table.step
        queue := ⟨FallQueue.insertAll e.table.step.falls []⟩
        periods := e.periods + 1
        phase := if (FallQueue.insertAll e.table.step.falls []).isEmpty then .idle
          else .emitting } := by
  rw [beginPeriod, Action.run_get_bind] at h
  -- the old falls first, as the queue is empty when the new pulses begin
  obtain ⟨⟨⟩, t, h_lower, h⟩ := Action.run_bind_eq_ok_iff.1 h
  obtain ⟨low, h_low, rfl⟩ := run_lowerAll_eq_ok rfl h_lower
  rw [Action.run_modify_bind, Action.run_get_bind] at h
  obtain ⟨⟨⟩, t, h_raise, h⟩ := Action.run_bind_eq_ok_iff.1 h
  -- the queue is empty by now, and has room for a fall of every channel
  have h_room : FallQueue.size {} + e.table.step.active.zipIdx.length ≤ maxServos := by
    rw [List.length_zipIdx]
    exact Nat.le_trans (Nat.le_of_eq (Nat.zero_add _)) e.table.step.length_active_le
  obtain ⟨high, h_high, rfl⟩ := run_raiseEach_eq_ok h_room h_raise
  obtain rfl := Action.run_modify_eq_ok_iff.1 h
  exact ⟨low, high, h_low, h_high, rfl⟩

/-- What the start of a period does but for the pins and the phase. -/
structure PeriodBegun (e e' : Engine (Bench P)) : Prop where
  clock_eq : e'.clock = e.clock
  lag_eq : e'.board.lag = e.board.lag
  wrap_eq : e'.wrap = e.wrap
  setup_eq : e'.config = e.config ∧ e'.started = e.started
  table_eq : e'.table = e.table.step
  queue_eq : e'.queue.events = FallQueue.insertAll e.table.step.falls []

theorem periodBegun_of_run (h : beginPeriod.run p e = .ok () e') : PeriodBegun e e' := by
  obtain ⟨low, high, -, -, rfl⟩ := run_beginPeriod_eq_ok h
  exact ⟨rfl, rfl, rfl, ⟨rfl, rfl⟩, rfl, rfl⟩

/-! ### Falls -/

theorem run_elapsed_bind_eq_ok {α : Type} {k : Nat → Action (Engine (Bench P)) α} {a : α}
    (h : ((liftM e.elapsed : Action (Engine (Bench P)) Nat) >>= k).run .debug e = .ok a e') :
    (e.clock.running = true → e.clock.origin ≤ e.clock.now) ∧
      (k e.seen).run .debug e = .ok a e' := by
  obtain ⟨n, h_n, h⟩ := Action.run_liftM_bind_eq_ok_iff.1 h
  obtain ⟨rfl, h_origin⟩ := run_elapsed_debug h_n
  exact ⟨h_origin, h⟩

/-- Arming the compare channel lets the lag pass. -/
theorem run_armCompare_eq_ok {value : Count}
    (h : (onBoard (Board.armCompare value)).run p e = .ok () e') :
    ∃ limit clock, (e.clock.after e.board.lag).run p = .ok limit ∧
      (Clock.passUntil limit).run p (e.clock.arm value) = .ok () clock ∧
      e' = e.withClock clock := by
  obtain ⟨b, h_board, rfl⟩ := Action.run_zoom_eq_ok_iff.1 h
  change (Bench.armCompare value).run p e.board = .ok () b at h_board
  rw [Bench.armCompare, Action.run_modify_bind, Action.run_get_bind] at h_board
  obtain ⟨limit, h_limit, h_pass⟩ := Action.run_liftM_bind_eq_ok_iff.1 h_board
  obtain ⟨clock, h_clock, rfl⟩ := Action.run_zoom_eq_ok_iff.1 h_pass
  exact ⟨limit, clock, h_limit, h_clock, rfl⟩

/-- How settling ends: with an empty queue, with a fall in a later turn of the counter, or
with the compare channel armed for the next fall. -/
inductive Settled : Engine (Bench P) → Engine (Bench P) → Prop
  | empty {e : Engine (Bench P)} (h_queue : e.queue.events = []) :
      Settled e { e.withClock e.clock.disarm with phase := .idle }
  | later {e : Engine (Bench P)} {f : Fall} {rest : List Fall}
      (h_queue : e.queue.events = f :: rest) (h_due : e.seen < f.due) (h_wrap : f.wrap ≠ e.wrap) :
      Settled e (e.withClock e.clock.disarm)
  | armed {e : Engine (Bench P)} {f : Fall} {rest : List Fall}
      (h_queue : e.queue.events = f :: rest) (h_due : e.seen < f.due) (h_wrap : f.wrap = e.wrap)
      (h_compare : e.clock.compare = some f.compareValue) : Settled e e

/-- What settling does between looking at the clock and ending: it lowers due falls and
arms the compare channel. A property kept by both is kept by all of it. -/
structure SettleStable (I : Engine (Bench P) → Prop) : Prop where
  lower : ∀ {e e' : Engine (Bench P)} {f : Fall} {rest : List Fall}, I e →
    e.queue.events = f :: rest → f.due ≤ e.seen →
    (e.clock.running = true → e.clock.origin ≤ e.clock.now) →
    (Engine.lower f rest).run .debug e = .ok () e' → I e'
  arm : ∀ {e : Engine (Bench P)} {f : Fall} {rest : List Fall} {limit : Nat} {clock : Clock},
    I e → e.queue.events = f :: rest → e.seen < f.due → f.wrap = e.wrap →
    (e.clock.after e.board.lag).run .debug = .ok limit →
    (Clock.passUntil limit).run .debug (e.clock.arm f.compareValue) = .ok () clock →
    I (e.withClock clock)

/-- What settling does about the first of the pending falls. It lowers the fall if it is due,
leaves it to the overflow of its turn, or arms the compare channel for it. Then it looks at the
clock again, and lowers the fall if it has come due meanwhile. -/
theorem run_settle_cons_eq_ok {f : Fall} {rest : List Fall}
    (h : (settle e.seen (f :: rest)).run .debug e = .ok () e') :
    (f.due ≤ e.seen ∧ (do lower f rest; settle e.seen rest).run .debug e = .ok () e') ∨
      (e.seen < f.due ∧ f.wrap ≠ e.wrap ∧ e' = e.withClock e.clock.disarm) ∨
      e.seen < f.due ∧ f.wrap = e.wrap ∧ ∃ limit clock,
        (e.clock.after e.board.lag).run .debug = .ok limit ∧
        (Clock.passUntil limit).run .debug (e.clock.arm f.compareValue) = .ok () clock ∧
        (clock.running = true → clock.origin ≤ clock.now) ∧
        ((f.due ≤ (e.withClock clock).seen ∧
          (do lower f rest; settle (e.withClock clock).seen rest).run .debug (e.withClock clock) =
            .ok () e') ∨
          (e.withClock clock).seen < f.due ∧ e' = e.withClock clock) := by
  rw [settle] at h
  -- due by the reading taken first
  by_cases h_due : f.due ≤ e.seen
  · rw [if_pos h_due] at h
    exact .inl ⟨h_due, h⟩
  rw [if_neg h_due, Action.run_get_bind] at h
  have h_ahead := Nat.lt_of_not_le h_due
  -- ahead, and in a later turn of the counter: the compare channel is given up
  by_cases h_wrap : f.wrap = e.wrap
  swap
  · rw [if_pos h_wrap] at h
    exact .inr (.inl ⟨h_ahead, h_wrap, (Action.run_modify_eq_ok_iff.1 h).symm⟩)
  -- ahead in this turn: armed, and read once more after the lag
  rw [if_neg (not_not_intro h_wrap)] at h
  obtain ⟨⟨⟩, t, h_arm, h⟩ := Action.run_bind_eq_ok_iff.1 h
  obtain ⟨limit, clock, h_limit, h_pass, rfl⟩ := run_armCompare_eq_ok h_arm
  rw [Action.run_get_bind] at h
  obtain ⟨h_origin, h⟩ := run_elapsed_bind_eq_ok h
  refine .inr (.inr ⟨h_ahead, h_wrap, limit, clock, h_limit, h_pass, h_origin, ?_⟩)
  -- due by now, or the interrupt of the compare channel will come for it
  by_cases h_later : f.due ≤ (e.withClock clock).seen
  · rw [if_pos h_later] at h
    exact .inl ⟨h_later, h⟩
  · rw [if_neg h_later] at h
    exact .inr ⟨Nat.lt_of_not_le h_later, (Action.run_pure_eq_ok_iff.1 h).2.symm⟩

/-- **Settling.** A property kept while settling holds when it ends. -/
theorem settled_of_run_settle {I : Engine (Bench P) → Prop} (hI : SettleStable I)
    {events : List Fall} (h_queue : e.queue = ⟨events⟩) (h_start : I e)
    (h_origin : e.clock.running = true → e.clock.origin ≤ e.clock.now)
    (h : (settle e.seen events).run .debug e = .ok () e') : ∃ e₁, I e₁ ∧ Settled e₁ e' := by
  -- induction on the queue: every round lowers its first fall, or ends
  induction events generalizing e with
  | nil =>
    -- nothing is left and the compare channel is given up
    rw [settle, changeBoard, Action.run_modify_bind] at h
    obtain rfl := Action.run_modify_eq_ok_iff.1 h
    exact ⟨e, h_start, .empty (by rw [h_queue])⟩
  | cons f rest ih =>
    -- lowering takes no time, so the rest is settled by the same reading of the clock
    have h_lowered {t : Engine (Bench P)} (h_t : t.queue = ⟨f :: rest⟩) (h_It : I t)
        (h_due : f.due ≤ t.seen)
        (h_origin : t.clock.running = true → t.clock.origin ≤ t.clock.now)
        (h : (do lower f rest; settle t.seen rest).run .debug t = .ok () e') :
        ∃ e₁, I e₁ ∧ Settled e₁ e' := by
      obtain ⟨⟨⟩, u, h_first, h_rest⟩ := Action.run_bind_eq_ok_iff.1 h
      have h_Iu := hI.lower h_It (by rw [h_t]) h_due h_origin h_first
      obtain ⟨pins, -, rfl⟩ := run_lower_eq_ok_iff.1 h_first
      exact ih rfl h_Iu h_origin h_rest
    rcases run_settle_cons_eq_ok h with ⟨h_due, h⟩ | ⟨h_ahead, h_wrap, rfl⟩ |
      ⟨h_ahead, h_wrap, limit, clock, h_limit, h_pass, h_origin, h⟩
    · -- the fall is due
      exact h_lowered h_queue h_start h_due h_origin h
    · -- the fall is in a later turn of the counter
      exact ⟨e, h_start, .later (by rw [h_queue]) h_ahead h_wrap⟩
    · have h_It := hI.arm h_start (by rw [h_queue]) h_ahead h_wrap h_limit h_pass
      rcases h with ⟨h_due, h⟩ | ⟨h_ahead, rfl⟩
      · -- the fall has come due while the compare channel was armed for it
        exact h_lowered (t := e.withClock clock) h_queue h_It h_due h_origin h
      · exact ⟨_, h_It, .armed (congrArg FallQueue.events h_queue) h_ahead h_wrap
          (Clock.keeps_passUntil limit h_pass).compare_eq⟩

theorem settled_of_run_fallDue {I : Engine (Bench P) → Prop} (hI : SettleStable I)
    (h_start : I e) (h : fallDue.run .debug e = .ok () e') : ∃ e₁, I e₁ ∧ Settled e₁ e' := by
  rw [fallDue, Action.run_get_bind] at h
  obtain ⟨h_origin, h⟩ := run_elapsed_bind_eq_ok h
  exact settled_of_run_settle hI rfl h_start h_origin h

/-! ### The interrupt -/

/-- The engine with both flags taken. -/
def quiet (e : Engine (Bench P)) : Engine (Bench P) :=
  e.withClock { e.clock with overflowPending := false, comparePending := false }

/-- What an interrupt does once the flags are taken: nothing when the engine is halted or no
flag was up; else it counts a turn of the counter if there was one, which may begin a
period, and settles the queue. -/
theorem run_interrupt_eq_ok (h : interrupt.run p e = .ok () e') :
    (e.phase = .halted ∨ e.clock.hasPending = false) ∧ e' = e.quiet ∨
      e.phase ≠ .halted ∧ e.clock.overflowPending = false ∧ fallDue.run p e.quiet = .ok () e' ∨
      e.phase ≠ .halted ∧ e.clock.overflowPending = true ∧
        ∃ e₁, turn.run p e.quiet = .ok () e₁ ∧ fallDue.run p e₁ = .ok () e' := by
  change Action.run (do
    if e.phase ≠ .halted then
      if e.clock.overflowPending then turn
      if e.clock.overflowPending || e.clock.comparePending then fallDue) p e.quiet
    = .ok () e' at h
  rw [Clock.hasPending]
  -- halted, the flags are taken and nothing else
  by_cases h_halted : e.phase = .halted
  · rw [if_neg (not_not_intro h_halted)] at h
    exact .inl ⟨.inl h_halted, (Action.run_pure_eq_ok_iff.1 h).2.symm⟩
  rw [if_pos h_halted] at h
  -- an overflow turns the period first; a match alone only looks at the falls
  cases h_overflow : e.clock.overflowPending with
  | true =>
    rw [h_overflow] at h
    obtain ⟨⟨⟩, e₁, h_turn, h_fall⟩ := Action.run_bind_eq_ok_iff.1 h
    exact .inr (.inr ⟨h_halted, rfl, e₁, h_turn, h_fall⟩)
  | false =>
    cases h_compare : e.clock.comparePending with
    | true =>
      rw [h_overflow, h_compare] at h
      exact .inr (.inl ⟨h_halted, rfl, h⟩)
    | false =>
      -- no flag was up
      rw [h_overflow, h_compare] at h
      change Action.run (pure ()) p e.quiet = .ok () e' at h
      exact .inl ⟨.inr rfl, (Action.run_pure_eq_ok_iff.1 h).2.symm⟩

/-- An interrupt that finds the overflow flag counts a turn of the counter and then settles. -/
theorem run_interrupt_of_overflow {clock : Clock}
    (h_run : interrupt.run p (e.withClock clock) = .ok () e') (h_on : e.phase ≠ .halted)
    (h_flag : clock.overflowPending = true) :
    ∃ t, turn.run p (e.withClock clock).quiet = .ok () t ∧ fallDue.run p t = .ok () e' := by
  -- the three other outcomes contradict the flag or the phase
  rcases run_interrupt_eq_ok h_run with ⟨h_halted | h_none, -⟩ | ⟨-, h_down, -⟩ | ⟨-, -, h_served⟩
  · exact absurd h_halted h_on
  · change clock.hasPending = false at h_none
    rw [Clock.hasPending, h_flag] at h_none
    exact Bool.noConfusion h_none
  · exact Bool.noConfusion (h_down.symm.trans h_flag)
  · exact h_served

/-- An interrupt that finds the compare flag alone only settles. -/
theorem run_interrupt_of_match {clock : Clock}
    (h_run : interrupt.run p (e.withClock clock) = .ok () e') (h_on : e.phase ≠ .halted)
    (h_down : clock.overflowPending = false) (h_flag : clock.comparePending = true) :
    fallDue.run p (e.withClock clock).quiet = .ok () e' := by
  -- here the flag of the overflow decides as well
  rcases run_interrupt_eq_ok h_run with ⟨h_halted | h_none, -⟩ | ⟨-, -, h_served⟩ | ⟨-, h_up, -⟩
  · exact absurd h_halted h_on
  · change clock.hasPending = false at h_none
    rw [Clock.hasPending, h_flag, Bool.or_true] at h_none
    exact Bool.noConfusion h_none
  · exact h_served
  · exact Bool.noConfusion (h_down.symm.trans h_up)

/-- Counting a turn of the counter. -/
theorem run_turn_eq_ok (h : turn.run p e = .ok () e') :
    min (e.wrap + 1) 255 < e.config.wrapsPerPeriod.toNat ∧
        e' = { e with wrap := min (e.wrap + 1) 255 } ∨
      e.config.wrapsPerPeriod.toNat ≤ min (e.wrap + 1) 255 ∧
        beginPeriod.run p { e with wrap := 0 } = .ok () e' := by
  rw [turn, Action.run_modify_bind, Action.run_get_bind] at h
  -- the turn completes a period when the count reaches its length
  by_cases h_period : e.config.wrapsPerPeriod.toNat ≤ min (e.wrap + 1) 255
  · rw [if_pos h_period] at h
    exact .inr ⟨h_period, h⟩
  · rw [if_neg h_period] at h
    exact .inl ⟨Nat.lt_of_not_le h_period, (Action.run_pure_eq_ok_iff.1 h).2.symm⟩

/-- What serving an interrupt is made of: it sets the flags, the compare channel, the count
of turns and the phase, begins periods and settles the queue. A property kept by all of these
is kept by an interrupt. -/
structure ServeStable (I : Engine (Bench P) → Prop) : Prop extends SettleStable I where
  setClock : ∀ {e : Engine (Bench P)} {clock : Clock}, I e → clock.now = e.clock.now →
    clock.origin = e.clock.origin → I (e.withClock clock)
  setWrap : ∀ {e : Engine (Bench P)} {wrap : Nat}, I e → I { e with wrap }
  setPhase : ∀ {e : Engine (Bench P)} {phase : Phase}, I e → I { e with phase }
  beginPeriod : ∀ {e e' : Engine (Bench P)}, I e → Engine.beginPeriod.run .debug e = .ok () e' →
    I e'

namespace ServeStable

variable {I : Engine (Bench P) → Prop}

theorem fallDue (hI : ServeStable I) (h_start : I e)
    (h : Engine.fallDue.run .debug e = .ok () e') : I e' := by
  obtain ⟨t, h_t, h_end⟩ := settled_of_run_fallDue hI.toSettleStable h_start h
  cases h_end with
  | empty => exact hI.setPhase (hI.setClock h_t rfl rfl)
  | later => exact hI.setClock h_t rfl rfl
  | armed => exact h_t

/-- **Interrupts.** What all parts of serving keep is kept by an interrupt that returns, whether it
comes to falls only, to the end of a turn, or to the beginning of a period. -/
theorem interrupt (hI : ServeStable I) (h_start : I e)
    (h : Engine.interrupt.run .debug e = .ok () e') : I e' := by
  -- taking the flags changes the clock, and neither its counter nor what it is armed for
  have h_quiet : I e.quiet := hI.setClock h_start rfl rfl
  rcases run_interrupt_eq_ok h with ⟨-, rfl⟩ | ⟨-, -, h_fall⟩ | ⟨-, -, t, h_turn, h_fall⟩
  · exact h_quiet
  · exact hI.fallDue h_quiet h_fall
  · refine hI.fallDue ?_ h_fall
    -- a turn inside the period only counts
    rcases run_turn_eq_ok h_turn with ⟨-, rfl⟩ | ⟨-, h_begin⟩
    · exact hI.setWrap h_quiet
    · exact hI.beginPeriod (hI.setWrap h_quiet) h_begin

/-- Serving leaves the setup alone and only steps the table. -/
theorem of_setup {Q : Config → Nat → Bool → ChannelTable → Prop}
    (h_step : ∀ {config : Config} {lag : Nat} {on : Bool} {t : ChannelTable},
      Q config lag on t → Q config lag on t.step) :
    ServeStable fun e : Engine (Bench P) => Q e.config e.board.lag e.started e.table where
  -- neither pins nor queue are read by the property
  lower h _ _ _ h_run := by
    obtain ⟨pins, -, rfl⟩ := run_lower_eq_ok_iff.1 h_run
    exact h
  arm h _ _ _ _ _ := h
  setClock h _ _ := h
  setWrap h := h
  setPhase h := h
  -- the one step of an interrupt that changes the table
  beginPeriod h h_run := by
    obtain ⟨low, high, -, -, rfl⟩ := run_beginPeriod_eq_ok h_run
    exact h_step h

end ServeStable

/-- An interrupt neither starts nor stops the engine. -/
theorem started_of_run_interrupt (h : interrupt.run .debug e = .ok () e') :
    e'.started = e.started :=
  (ServeStable.of_setup (Q := fun _ _ on _ => on = e.started) id).interrupt rfl h

end Engine

end ServoPulse
