import ServoPulse.Proofs.Effects.Calls
import ServoPulse.Proofs.Scope

/-!
# Interrupts that return

In the `debug` profile a sum or a difference that leaves its width traps. An interrupt makes only a
few requests of the pins and arms the compare channel only a few times, so it returns as long as
there is room for them (`Spare.interrupt`): the time is far enough from its end, no pin rose after
the present time, and the count of refused requests is far enough from its end.

Pins of which requests return while there is room for them are a `RoomyPinBank`; recorded pins are
one, and so are the pins under a scope. `Roomy` is what every step of a run preserves.
-/

namespace ServoPulse

/-- From `s` the run of `x` returns, with an answer and a state as `Q` says. -/
def Action.Returns {σ α : Type} (p : Profile) (x : Action σ α) (s : σ) (Q : α → σ → Prop) : Prop :=
  ∃ a s', x.run p s = .ok a s' ∧ Q a s'

namespace Action.Returns

variable {σ τ α β γ : Type} {p : Profile} {s : σ} {Q : α → σ → Prop} {R : β → σ → Prop}

theorem pure {a : α} (h : Q a s) : Returns p (Pure.pure a) s Q := ⟨a, s, rfl, h⟩

theorem mono {Q' : α → σ → Prop} {x : Action σ α} (h : Returns p x s Q)
    (h_imp : ∀ a s', x.run p s = .ok a s' → Q a s' → Q' a s') : Returns p x s Q' := by
  obtain ⟨a, s', h_run, h_Q⟩ := h
  exact ⟨a, s', h_run, h_imp a s' h_run h_Q⟩

theorem bind {x : Action σ α} {f : α → Action σ β} (h : Returns p x s Q)
    (h_rest : ∀ a s', x.run p s = .ok a s' → Q a s' → Returns p (f a) s' R) :
    Returns p (x >>= f) s R := by
  obtain ⟨a, t, h_run, h_Q⟩ := h
  obtain ⟨b, s', h_run', h_R⟩ := h_rest a t h_run h_Q
  exact ⟨b, s', run_bind_eq_ok_iff.2 ⟨a, t, h_run, h_run'⟩, h_R⟩

theorem get_bind {f : σ → Action σ α} (h : Returns p (f s) s Q) : Returns p (get >>= f) s Q := h

theorem modify_bind {f : σ → σ} {k : PUnit → Action σ α} (h : Returns p (k ⟨⟩) (f s) Q) :
    Returns p (modify f >>= k) s Q := h

theorem ite {c : Prop} [Decidable c] {x y : Action σ α} (h_pos : c → Returns p x s Q)
    (h_neg : ¬c → Returns p y s Q) : Returns p (if c then x else y) s Q := by
  split
  · exact h_pos ‹c›
  · exact h_neg ‹¬c›

theorem liftM_bind {x : Checked α} {a : α} {f : α → Action σ β} (h : x.run p = .ok a)
    (h_rest : Returns p (f a) s R) : Returns p ((liftM x : Action σ α) >>= f) s R := by
  obtain ⟨b, s', h_run, h_R⟩ := h_rest
  exact ⟨b, s', run_liftM_bind_eq_ok_iff.2 ⟨a, h, h_run⟩, h_R⟩

/-- A list of operations, each of which leaves what the rest of the list needs. -/
theorem forM {I : List γ → σ → Prop} {f : γ → Action σ PUnit} {l : List γ}
    (h_each : ∀ g l s, I (g :: l) s → Returns p (f g) s fun _ s' => I l s') (h : I l s) :
    Returns p (l.forM f) s fun _ s' => I [] s' := by
  induction l generalizing s with
  | nil => exact ⟨⟨⟩, s, run_forM_nil_eq_ok_iff.2 rfl, h⟩
  | cons g l ih =>
    obtain ⟨⟨⟩, t, h_first, h_t⟩ := h_each g l s h
    obtain ⟨u, s', h_rest, h_s'⟩ := ih h_t
    exact ⟨u, s', run_forM_cons_eq_ok_iff.2 ⟨t, h_first, h_rest⟩, h_s'⟩

theorem repeatWhile {I : σ → Prop} {x : Action σ Bool}
    (h_each : ∀ s, I s → Returns p x s fun _ s' => I s') {fuel : Nat} (h : I s) :
    Returns p (Action.repeatWhile x fuel) s fun _ s' => I s' := by
  induction fuel generalizing s with
  | zero => exact .pure h
  | succ fuel ih =>
    -- the first round returns, and the loop may be over after it
    refine .bind (h_each s h) fun more t _ h_t => ?_
    cases more with
    | true => exact ih h_t
    | false => exact .pure h_t

end Action.Returns

/-! ### Pins -/

/-- A bank of pins of which requests return in the `debug` profile as long as there is room. -/
class RoomyPinBank (P : Type) [PinBank P] [LawfulPinBank P] where
  /-- There is room for `n` requests from the time `now` on. -/
  Room : (now n : Nat) → P → Prop
  mono : ∀ {now now' m n : Nat} {r : P}, Room now n r → now ≤ now' → m ≤ n → Room now' m r
  drive : ∀ {now n pin : Nat} {level : Bool} {r : P}, Room now (n + 1) r →
    (PinBank.drive level now pin).Returns .debug r fun _ r' => Room now n r'
  of_drive : ∀ {p : Profile} {now pin : Nat} {level : Bool} {r r' : P}, Room now 0 r →
    (PinBank.drive level now pin).run p r = .ok () r' → Room now 0 r'
  of_configureOutput : ∀ {now pin : Nat} {r : P}, Room now 0 r →
    Room now 0 (PinBank.configureOutput pin r)
  /-- Where no request was refused so far, there is room for any number that fits in 32 bits. -/
  of_faults : ∀ {now n : Nat} {r : P}, Room now 0 r → LawfulPinBank.faults r = 0 →
    n < Width.bits32.size → Room now n r

namespace RoomyPinBank

variable {P : Type} [PinBank P] [LawfulPinBank P] [RoomyPinBank P] {p : Profile} {now : Nat}
  {level : Bool} {r r' : P}

theorem of_driveAll {pins : List Nat} (h : Room now 0 r)
    (h_run : (PinBank.driveAll level now pins).run p r = .ok () r') : Room now 0 r' :=
  PinBank.driveAll_keeps of_drive h h_run

/-- Requests take as much room as there are of them. -/
theorem room_of_driveAll {n : Nat} {pins : List Nat} (h : Room now (pins.length + n) r)
    (h_run : (PinBank.driveAll level now pins).run .debug r = .ok () r') : Room now n r' := by
  induction pins generalizing r with
  | nil =>
    obtain rfl := Action.run_forM_nil_eq_ok_iff.1 h_run
    rwa [List.length_nil, Nat.zero_add] at h
  | cons pin pins ih =>
    -- the first pin takes one of the places
    rw [List.length_cons, Nat.add_right_comm] at h
    obtain ⟨s, h_first, h_rest⟩ := Action.run_forM_cons_eq_ok_iff.1 h_run
    obtain ⟨⟨⟩, t, h_pin, h_t⟩ : (PinBank.drive level now pin).Returns .debug r fun _ t =>
      Room now (pins.length + n) t := drive h
    -- the run that is given is the one that returns
    obtain ⟨-, rfl⟩ := EStateM.Result.ok.inj (h_pin.symm.trans h_first)
    exact ih h_t h_rest

theorem of_prepareAll {pins : List Nat} (h : Room now 0 r) :
    Room now 0 (PinBank.prepareAll pins r) :=
  PinBank.prepareAll_keeps of_configureOutput h

end RoomyPinBank

theorem Checked.lt_of_run_add {p : Profile} {w : Width} {a b n : Nat}
    (h : (Checked.add w a b).run p = .ok n) : n < w.size := by
  cases p with
  | debug =>
    obtain ⟨h_lt, rfl⟩ := Checked.run_add_debug_iff.1 h
    exact h_lt
  | release =>
    obtain rfl := Except.ok.inj h
    exact Nat.mod_lt _ w.size_pos

namespace PinRecorder

variable {p : Profile} {now pin n : Nat} {level : Bool} {r r' : PinRecorder}

/-- No pin rose after the time `now`. -/
def RoseBy (now : Nat) (r : PinRecorder) : Prop := ∀ pin t, r.state pin = .high t → t ≤ now

theorem RoseBy.setState (h : RoseBy now r) {s : PinState} (h_pin : pin ∈ eligiblePins)
    (h_s : ∀ t, s = .high t → t ≤ now) (h_pins : r'.pins = (r.setState pin s).pins) :
    RoseBy now r' := by
  intro other t h_high
  rw [state_congr h_pins, state_setState_of_eligible h_pin] at h_high
  split at h_high
  · exact h_s t h_high
  · exact h other t h_high

/-- No pin rose after the time `now`, and the count of violations has room for `n` more. -/
structure HasRoom (now n : Nat) (r : PinRecorder) : Prop where
  rose_le : ∀ pin t, r.state pin = .high t → t ≤ now
  violations_lt : r.violations + n < Width.bits32.size

theorem hasRoom_new (now : Nat) : HasRoom now 0 {} where
  rose_le pin t h_high := by
    have h_low := isHigh_new pin
    rw [isHigh, h_high] at h_low
    exact Bool.noConfusion h_low
  violations_lt := by decide

theorem HasRoom.setState (h : HasRoom now n r) {s : PinState} (h_pin : pin ∈ eligiblePins)
    (h_s : ∀ t, s = .high t → t ≤ now) (h_pins : r'.pins = (r.setState pin s).pins)
    (h_viol : r'.violations = r.violations) : HasRoom now n r' :=
  ⟨RoseBy.setState h.rose_le h_pin h_s h_pins, h_viol.symm ▸ h.violations_lt⟩

theorem HasRoom.violate (h : HasRoom now (n + 1) r) :
    PinRecorder.violate.Returns .debug r fun _ r' => HasRoom now n r' := by
  have h_lt := h.violations_lt
  refine .get_bind (.liftM_bind (Checked.run_add_of_lt (by omega) .debug) ?_)
  refine ⟨⟨⟩, _, rfl, h.rose_le, ?_⟩
  change r.violations + 1 + n < _
  omega

theorem HasRoom.of_violate (h : HasRoom now 0 r) (h_run : PinRecorder.violate.run p r = .ok () r') :
    HasRoom now 0 r' := by
  rw [PinRecorder.violate, Action.run_get_bind, Action.run_liftM_bind_eq_ok_iff] at h_run
  obtain ⟨violations, h_add, h_run⟩ := h_run
  obtain rfl := Action.run_modify_eq_ok_iff.1 h_run
  exact ⟨h.rose_le, Checked.lt_of_run_add h_add⟩

/-- A change of a pin is recorded with the present time, and a refused one takes up the room of one
violation. -/
theorem HasRoom.returns_drive (h : HasRoom now (n + 1) r) :
    (PinBank.drive level now pin).Returns .debug r fun _ r' => HasRoom now n r' := by
  have h_less : HasRoom now n r := ⟨h.rose_le, Nat.lt_of_succ_lt h.violations_lt⟩
  cases level with
  | true =>
    change (if pin ∈ eligiblePins then rise now pin else Pure.pure ()).Returns _ _ _
    refine .ite (fun h_pin => .get_bind ?_) fun _ => .pure h_less
    cases r.state pin with
    | low =>
      -- the pin has risen now, which is not in the future
      refine ⟨⟨⟩, _, rfl, h_less.setState h_pin (fun t h_t => ?_) rfl rfl⟩
      exact Nat.le_of_eq (PinState.high.inj h_t).symm
    | unconfigured =>
      -- one violation more, for which there was room
      exact h.violate
    | high => exact h.violate
  | false =>
    change (if pin ∈ eligiblePins then fall now pin else Pure.pure ()).Returns _ _ _
    refine .ite (fun h_pin => .get_bind ?_) fun _ => .pure h_less
    cases h_state : r.state pin with
    | unconfigured => exact h.violate
    | low => exact .pure h_less
    | high roseAt =>
      -- the width of the pulse is a difference that comes out, as its rise is in the past
      have h_rose := h.rose_le pin roseAt h_state
      refine .modify_bind (.liftM_bind (Checked.run_sub_debug_iff.2 ⟨h_rose, rfl⟩) ?_)
      refine ⟨⟨⟩, _, rfl, h_less.setState h_pin (fun t h_t => ?_) rfl rfl⟩
      exact PinState.noConfusion h_t

/-- A request that returns leaves the count of violations within its bits. -/
theorem HasRoom.of_drive (h : HasRoom now 0 r)
    (h_run : (PinBank.drive level now pin).run p r = .ok () r') : HasRoom now 0 r' := by
  by_cases h_pin : pin ∈ eligiblePins
  swap
  · -- nothing happens to what is no pin
    rwa [eq_of_run_drive h_pin h_run]
  cases level with
  | true =>
    change (if pin ∈ eligiblePins then rise now pin else Pure.pure ()).run _ _ = _ at h_run
    rw [if_pos h_pin, rise, Action.run_get_bind] at h_run
    cases h_state : r.state pin with
    | low =>
      rw [h_state] at h_run
      obtain rfl := Action.run_modify_eq_ok_iff.1 h_run
      refine h.setState h_pin (fun t h_t => ?_) rfl rfl
      exact Nat.le_of_eq (PinState.high.inj h_t).symm
    | unconfigured =>
      -- the count went up and did not trap
      rw [h_state] at h_run
      exact h.of_violate h_run
    | high =>
      rw [h_state] at h_run
      exact h.of_violate h_run
  | false =>
    change (if pin ∈ eligiblePins then fall now pin else Pure.pure ()).run _ _ = _ at h_run
    rw [if_pos h_pin] at h_run
    by_cases h_un : r.state pin = .unconfigured
    · rw [fall, Action.run_get_bind, h_un] at h_run
      exact h.of_violate h_run
    rcases run_fall_eq_ok h_run with ⟨h_state, -⟩ | ⟨-, rfl⟩ | ⟨t, -, h_pins, h_viol⟩
    · exact absurd h_state h_un
    · exact h
    · -- the pulse is over, and no rise is left in the future
      exact h.setState h_pin (fun t h_t => PinState.noConfusion h_t) h_pins h_viol

instance : RoomyPinBank PinRecorder where
  Room := HasRoom
  mono h h_now h_n :=
    ⟨fun pin t h_high => Nat.le_trans (h.rose_le pin t h_high) h_now,
      Nat.lt_of_le_of_lt (Nat.add_le_add_left h_n _) h.violations_lt⟩
  drive := HasRoom.returns_drive
  of_drive := HasRoom.of_drive
  of_configureOutput {now pin r} h := by
    -- a pin that becomes an output has not risen
    change HasRoom now 0 (if pin ∈ eligiblePins then r.setState pin .low else r)
    split
    · rename_i h_pin
      exact h.setState h_pin (fun t h_t => PinState.noConfusion h_t) rfl rfl
    · exact h
  of_faults {now n r} h h_faults h_n := by
    change r.violations = 0 at h_faults
    exact ⟨h.rose_le, by rwa [h_faults, Nat.zero_add]⟩

end PinRecorder

instance {P : Type} [PinBank P] [LawfulPinBank P] [RoomyPinBank P] : RoomyPinBank (Scope P) where
  Room now n s := RoomyPinBank.Room now n s.pins
  mono := RoomyPinBank.mono (P := P)
  drive {now n pin level s} h := by
    -- a request is made of the bank and then seen by the scope, which always returns
    obtain ⟨⟨⟩, pins, h_run, h_room⟩ : (PinBank.drive level now pin).Returns .debug s.pins
        fun _ pins => RoomyPinBank.Room now n pins := RoomyPinBank.drive h
    exact ⟨⟨⟩, _, Scope.run_drive_eq_ok_iff.2 ⟨pins, h_run, rfl⟩, h_room⟩
  of_drive h h_run := by
    obtain ⟨pins, h_pins, rfl⟩ := Scope.run_drive_eq_ok_iff.1 h_run
    exact RoomyPinBank.of_drive (P := P) h h_pins
  of_configureOutput := RoomyPinBank.of_configureOutput (P := P)
  of_faults := RoomyPinBank.of_faults (P := P)

/-- A table has no more falls than channels. -/
theorem FallQueue.length_insertAll_falls_le (t : ChannelTable) :
    (FallQueue.insertAll t.falls []).length ≤ maxServos := by
  rw [(perm_insertAll _ _).length_eq, List.append_nil]
  refine Nat.le_trans (List.length_filterMap_le _ _) ?_
  rw [List.length_zipIdx]
  exact t.length_active_le

/-! ### The clock -/

namespace Clock

theorem fits_of_lt {c : Clock} (h_origin : c.origin ≤ c.now)
    (h : c.now + ticksPerWrap < Width.bits64.size) : c.Fits where
  origin_le _ := h_origin
  overflow_lt _ := by
    -- the overflow is within a turn of the present
    unfold overflowAt
    omega
  match_lt _ t ht := by
    obtain ⟨value, -, rfl⟩ := Option.map_eq_some_iff.1 ht
    -- and so is the match
    have h_le := ticksTo_le (.ofNat (c.now - c.origin)) value
    omega

theorem reach_now_le (c : Clock) (limit : Nat) :
    c.now ≤ (c.reach limit).2.now ∧ (c.reach limit).2.now ≤ max c.now limit := by
  unfold reach
  have h_next := c.lt_eventAt
  split
  · rename_i h_event
    exact ⟨Nat.le_of_lt h_next, Nat.le_trans h_event.2 (Nat.le_max_right _ _)⟩
  · exact ⟨Nat.le_max_left _ _, Nat.le_refl _⟩

/-- A jump of time returns as long as a turn of the counter still fits. -/
theorem returns_advanceUntil {c : Clock} (limit : Nat) (h_origin : c.origin ≤ c.now)
    (h : c.now + ticksPerWrap < Width.bits64.size) :
    (advanceUntil limit).Returns .debug c fun _ c' =>
      c'.origin = c.origin ∧ c.now ≤ c'.now ∧ c'.now ≤ max c.now limit := by
  have h_fits := fits_of_lt h_origin h
  have h_now := c.reach_now_le limit
  exact ⟨_, _, run_advanceUntil_of_fits h_fits limit .debug, (passes_reach h_fits limit).origin_eq,
    h_now⟩

theorem returns_passUntil {c : Clock} (limit : Nat) (h_origin : c.origin ≤ c.now)
    (h : max c.now limit + ticksPerWrap < Width.bits64.size) :
    (passUntil limit).Returns .debug c fun _ c' =>
      c'.origin = c.origin ∧ c.now ≤ c'.now ∧ c'.now ≤ max c.now limit := by
  -- the loop goes on from clocks of the same origin, which have not passed the limit
  refine .repeatWhile (fun d h_d => ?_) ⟨rfl, Nat.le_refl _, Nat.le_max_left _ _⟩
  obtain ⟨h_same, h_from, h_by⟩ := h_d
  have h_d : d.now + ticksPerWrap < Width.bits64.size := by omega
  refine (returns_advanceUntil limit (h_same ▸ Nat.le_trans h_origin h_from) h_d).mono
    fun _ d' _ h_d' => ?_
  exact ⟨h_d'.1.trans h_same, by omega, by omega⟩

end Clock

namespace Engine

variable {P : Type} [PinBank P] [LawfulPinBank P] [RoomyPinBank P] {p : Profile}
  {e e' : Engine (Bench P)} {m n arms : Nat}

/-! ### The interrupt -/

omit [LawfulPinBank P] [RoomyPinBank P] in
/-- The counter is read without a trap unless it was started in the future. -/
theorem run_elapsed_of_origin_le (h : e.clock.running = true → e.clock.origin ≤ e.clock.now) :
    e.elapsed.run .debug = .ok e.seen := by
  refine Checked.run_map_eq_ok_iff.2 ⟨.ofNat e.shown, ?_, ?_⟩
  · change e.clock.counter.run .debug = _
    -- the counter is read when the timer runs, and shows zero otherwise
    by_cases h_run : e.clock.running = true
    · rw [Clock.run_counter_debug_iff h_run, shown, if_pos h_run]
      refine ⟨h h_run, Fin.ext ?_⟩
      exact (Nat.mod_mod _ _).symm
    · rw [Clock.counter, if_neg h_run, shown, if_neg h_run]
      rfl
  · -- turns and counter together fit into 32 bits
    rw [seen, Nat.add_left_cancel_iff]
    refine Nat.mod_eq_of_lt ?_
    unfold shown
    split
    · exact e.clock.count_lt
    · decide

/-- There is room for `n` requests of the pins and for arming the compare channel `arms` times. -/
structure Spare (n arms : Nat) (e : Engine (Bench P)) : Prop where
  origin_le : e.clock.origin ≤ e.clock.now
  room : RoomyPinBank.Room e.clock.now n e.pins
  time : e.clock.now + arms * e.board.lag + ticksPerWrap < Width.bits64.size

namespace Spare

theorem mono {arms' : Nat} (h : Spare n arms e) (h_n : m ≤ n) (h_arms : arms' ≤ arms) :
    Spare m arms' e where
  origin_le := h.origin_le
  room := RoomyPinBank.mono h.room (Nat.le_refl _) h_n
  time := by
    have h_time := h.time
    have h_less := Nat.mul_le_mul_right e.board.lag h_arms
    omega

/-- Only the clock, the lag and the pins matter. -/
theorem of_board (h : Spare n arms e) (h_board : e'.board = e.board) : Spare n arms e' where
  origin_le := by
    change e'.board.clock.origin ≤ e'.board.clock.now
    rw [h_board]
    exact h.origin_le
  room := by
    change RoomyPinBank.Room e'.board.clock.now n e'.board.pins
    rw [h_board]
    exact h.room
  time := by
    change e'.board.clock.now + arms * e'.board.lag + ticksPerWrap < _
    rw [h_board]
    exact h.time

theorem drive (h : Spare (n + 1) arms e) (level : Bool) (pin : Nat) :
    (PinBank.drive level e.clock.now pin).Returns .debug e.pins fun _ pins =>
      Spare n arms (e.withPins pins) := by
  refine (RoomyPinBank.drive h.room).mono fun _ pins _ h_pins => ?_
  exact ⟨h.origin_le, h_pins, h.time⟩

theorem lower {f : Fall} {rest : List Fall} (h : Spare (n + 1) arms e) :
    (Engine.lower f rest).Returns .debug e fun _ e' => Spare n arms e' := by
  obtain ⟨⟨⟩, pins, h_run, h_pins⟩ := h.drive false f.pin
  exact ⟨⟨⟩, _, run_lower_eq_ok_iff.2 ⟨pins, h_run, rfl⟩, h_pins.of_board rfl⟩

theorem lowerAll {events : List Fall} (h : Spare (events.length + n) arms e) :
    (Engine.lowerAll events).Returns .debug e fun _ e' => Spare n arms e' := by
  induction events generalizing e with
  | nil => exact .pure (h.mono (Nat.le_add_left _ _) (Nat.le_refl _))
  | cons f rest ih =>
    rw [List.length_cons, Nat.add_right_comm] at h
    exact .bind h.lower fun _ t _ h_t => ih h_t

theorem raise {servo : Nat} {c : Channel} (h : Spare (n + 1) arms e) :
    (Engine.raise servo c).Returns .debug e fun _ e' => Spare n arms e' := by
  -- a request takes one of the places, if it is made at all
  have h_less := h.mono (Nat.le_succ n) (Nat.le_refl arms)
  refine .ite (fun _ => .get_bind ?_) fun _ => .pure h_less
  cases e.queue.push ⟨c.position, servo, c.pin⟩ with
  | error =>
    -- a full queue raises nothing
    exact .pure h_less
  | ok queue =>
    obtain ⟨⟨⟩, pins, h_run, h_pins⟩ := h.drive true c.pin
    exact ⟨⟨⟩, _, run_setHigh_eq_ok_iff (e := { e with queue }).2 ⟨pins, h_run, rfl⟩,
      h_pins.of_board rfl⟩

/-- A period begins with as many requests as there are falls left over and new ones. -/
theorem beginPeriod (h : Spare (e.queue.events.length + (maxServos + n)) arms e) :
    Engine.beginPeriod.Returns .debug e fun _ e' => Spare n arms e' := by
  refine .get_bind (.bind h.lowerAll fun _ t _ h_t => .modify_bind (.get_bind ?_))
  -- first the falls that are left over, then the rises of the period
  refine .bind (Q := fun _ e' => Spare n arms e') ?_ fun _ u _ h_u => ?_
  · refine (Action.Returns.forM (I := fun l e => Spare (l.length + n) arms e)
      (fun c l u h_u => ?_) ?_).mono fun _ u _ h_u => ?_
    · rw [List.length_cons, Nat.add_right_comm] at h_u
      exact h_u.raise
    · -- the channels are as many as a table has at most
      refine (h_t.mono (Nat.add_le_add_right ?_ n) (Nat.le_refl _)).of_board rfl
      rw [List.length_zipIdx]
      exact ChannelTable.length_active_le _
    · rwa [List.length_nil, Nat.zero_add] at h_u
  · exact ⟨⟨⟩, _, rfl, h_u.of_board rfl⟩

theorem elapsed (h : Spare n arms e) : e.elapsed.run .debug = .ok e.seen :=
  run_elapsed_of_origin_le fun _ => h.origin_le

theorem armCompare {value : Count} (h : Spare n (arms + 1) e) :
    (onBoard (Board.armCompare value)).Returns .debug e fun _ e' => Spare n arms e' := by
  have h_time := h.time
  -- this arm takes one lag off the time that is left
  rw [Nat.add_one_mul] at h_time
  have h_after : (e.clock.after e.board.lag).run .debug = .ok (e.clock.now + e.board.lag) :=
    Checked.run_add_of_lt (by omega) .debug
  have h_limit : max (e.clock.arm value).now (e.clock.now + e.board.lag) + ticksPerWrap
      < Width.bits64.size := by
    rw [show (e.clock.arm value).now = e.clock.now from rfl]
    omega
  obtain ⟨⟨⟩, clock, h_run, h_origin, h_from, h_by⟩ :=
    Clock.returns_passUntil (c := e.clock.arm value) _ h.origin_le h_limit
  change e.clock.now ≤ clock.now at h_from
  change clock.now ≤ max e.clock.now _ at h_by
  refine ⟨⟨⟩, e.withClock clock, ?_, ?_, RoomyPinBank.mono h.room h_from (Nat.le_refl _), ?_⟩
  · refine Action.run_zoom_eq_ok_iff.2 ⟨{ e.board with clock }, ?_, rfl⟩
    refine Action.run_liftM_bind_eq_ok_iff.2 ⟨_, h_after, ?_⟩
    exact Action.run_zoom_eq_ok_iff.2 ⟨clock, h_run, rfl⟩
  · -- the clock has gone on from the same origin
    change clock.origin ≤ clock.now
    rw [h_origin]
    exact Nat.le_trans h.origin_le h_from
  · -- and not beyond the lag, so the time for the other arms is left
    change clock.now + arms * e.board.lag + _ < _
    omega

/-- Settling lowers each fall at most once and arms the compare channel at most once for each. -/
theorem settle {now : Nat} {events : List Fall} (h : Spare (events.length + n) events.length e) :
    (Engine.settle now events).Returns .debug e fun _ e' => Spare n 0 e' := by
  -- induction on the queue: each fall needs one place and one arm at most
  induction events generalizing e now with
  | nil =>
    have h_end := h.mono (Nat.le_add_left n _) (Nat.le_refl 0)
    exact ⟨⟨⟩, _, rfl, h_end.origin_le, h_end.room, h_end.time⟩
  | cons f rest ih =>
    -- what is left when this fall was due at once, and no arm was needed
    have h_less : Spare (rest.length + n + 1) rest.length e := by
      refine h.mono (Nat.le_of_eq ?_) (Nat.le_succ _)
      rw [List.length_cons]
      omega
    have h_lowered {t : Engine (Bench P)} {now : Nat}
        (h_t : Spare (rest.length + n + 1) rest.length t) :
        Action.Returns .debug (do Engine.lower f rest; Engine.settle now rest) t fun _ e' =>
          Spare n 0 e' :=
      .bind h_t.lower fun _ u _ h_u => ih h_u
    have h_done {t : Engine (Bench P)} (h_t : Spare (rest.length + n + 1) rest.length t) :
        Spare n 0 t := h_t.mono (by omega) (Nat.zero_le _)
    refine .ite (fun _ => h_lowered h_less) fun _ => .get_bind (.ite (fun _ => ?_) fun _ => ?_)
    · -- of a later turn, and given up
      have h_end := h_done h_less
      exact ⟨⟨⟩, _, rfl, h_end.origin_le, h_end.room, h_end.time⟩
    -- an arm for this fall, and one for each behind it
    have h_arm : Spare (rest.length + n + 1) (rest.length + 1) e := by
      refine h.mono (Nat.le_of_eq ?_) (Nat.le_refl _)
      rw [List.length_cons]
      omega
    -- after the arm the fall is due, or it is waited for
    refine .bind h_arm.armCompare fun _ t _ h_t => .get_bind (.liftM_bind h_t.elapsed ?_)
    exact .ite (fun _ => h_lowered h_t) fun _ => .pure (h_done h_t)

theorem fallDue (h : Spare (e.queue.events.length + n) e.queue.events.length e) :
    Engine.fallDue.Returns .debug e fun _ e' => Spare n 0 e' :=
  .get_bind (.liftM_bind h.elapsed h.settle)

theorem turn (h : Spare (e.queue.events.length + (maxServos + n)) arms e) :
    Engine.turn.Returns .debug e fun _ e' => Spare n arms e' ∧
      (e'.queue = e.queue ∨ e'.queue.events.length ≤ maxServos) := by
  refine .modify_bind (.get_bind (.ite (fun _ => ?_) fun _ => ?_))
  · -- the period begins with its counter at zero
    have h_begin : Spare (e.queue.events.length + (maxServos + n)) arms { e with wrap := 0 } :=
      h.of_board rfl
    obtain ⟨⟨⟩, t, h_run, h_t⟩ := Spare.beginPeriod (e := { e with wrap := 0 }) h_begin
    refine ⟨⟨⟩, t, h_run, h_t, .inr ?_⟩
    rw [(periodBegun_of_run h_run).queue_eq]
    exact FallQueue.length_insertAll_falls_le _
  · -- the turn is inside a period and takes nothing
    exact .pure ⟨(h.mono (by omega) (Nat.le_refl _)).of_board rfl, .inl rfl⟩

/-- A shutdown makes a request for each channel. -/
theorem shutDown (h : Spare (maxServos + n) arms e) :
    Engine.shutDown.Returns .debug e fun _ e' => Spare n arms e' := by
  have h_stopped {t : Engine (Bench P)} (h_t : Spare n arms t) {started moving : Bool}
      {phase : Phase} : Spare n arms { t with started, moving, phase } := h_t.of_board rfl
  -- the pins are lowered between two changes of the engine that take nothing
  refine .bind (Q := fun _ t => Spare n arms t) ?_ fun _ t _ h_t => ⟨⟨⟩, _, rfl, h_stopped h_t⟩
  refine .modify_bind (.modify_bind (.get_bind (.bind (Q := fun _ t => Spare n arms t) ?_
    fun _ t _ h_t => ⟨⟨⟩, _, rfl, h_stopped h_t⟩)))
  -- one place for each channel, of which there are no more than servos
  refine (Action.Returns.forM (I := fun l t => Spare (l.length + n) arms t) (fun c l t h_t => ?_)
    ?_).mono fun _ t _ h_t => ?_
  · rw [List.length_cons, Nat.add_right_comm] at h_t
    obtain ⟨⟨⟩, pins, h_run, h_pins⟩ := h_t.drive false c.pin
    exact ⟨⟨⟩, _, run_setLow_eq_ok_iff.2 ⟨pins, h_run, rfl⟩, h_pins⟩
  · have h_less := h.mono (Nat.add_le_add_right (ChannelTable.length_active_le e.table) n)
      (Nat.le_refl _)
    exact ⟨h_less.origin_le, h_less.room, h_less.time⟩
  · rwa [List.length_nil, Nat.zero_add] at h_t

/-- **Interrupts.** With room for the falls left over, the rises and the new falls, and for arming
the compare channel once for each of them, the interrupt returns. -/
theorem interrupt (h : Spare (e.queue.events.length + (2 * maxServos + n)) maxServos e)
    (h_queue : e.queue.events.length ≤ maxServos) :
    Engine.interrupt.Returns .debug e fun _ e' => Spare n 0 e' := by
  -- settling needs a place and an arm for each fall in the queue
  have h_fall {t : Engine (Bench P)} (h_t : Spare (maxServos + n) maxServos t)
      (h_len : t.queue.events.length ≤ maxServos) :
      Engine.fallDue.Returns .debug t fun _ e' => Spare n 0 e' :=
    (h_t.mono (Nat.add_le_add_right h_len n) h_len).fallDue
  -- a turn comes first, and may lower the old falls and raise the new ones
  have h_turn :
      Spare (e.queue.events.length + (maxServos + (maxServos + n))) maxServos e.quiet := by
    refine Spare.mono ⟨h.origin_le, h.room, h.time⟩ (Nat.le_of_eq ?_) (Nat.le_refl _)
    rw [Nat.two_mul, Nat.add_assoc maxServos]
  have h_few : Spare (maxServos + n) maxServos e.quiet := h_turn.mono (by omega) (Nat.le_refl _)
  have h_rest {t : Engine (Bench P)} {due : Bool} (h_t : Spare (maxServos + n) maxServos t)
      (h_len : t.queue.events.length ≤ maxServos) :
      Action.Returns .debug (if due then Engine.fallDue else pure ()) t fun _ e' => Spare n 0 e' :=
    .ite (fun _ => h_fall h_t h_len) fun _ => .pure (h_t.mono (Nat.le_add_left _ _) (Nat.zero_le _))
  change Action.Returns _ (do
    if e.phase ≠ .halted then
      if e.clock.overflowPending then Engine.turn
      if e.clock.overflowPending || e.clock.comparePending then Engine.fallDue) e.quiet _
  -- halted, only the flags are taken
  refine .ite (fun _ => .ite (fun _ => ?_) fun _ => h_rest h_few h_queue)
    fun _ => .pure (h_few.mono (by omega) (Nat.zero_le _))
  refine .bind (Spare.turn (e := e.quiet) h_turn) fun _ t _ h_t => h_rest h_t.1 ?_
  -- the queue was left as it was, or a period has filled it
  rcases h_t.2 with h_same | h_len
  · rw [h_same]
    exact h_queue
  · exact h_len

end Spare

end Engine

end ServoPulse
