import Mathlib.Data.List.Nodup
import ServoPulse.Proofs.LevelChanges
import ServoPulse.Proofs.Replay

/-!
# No pulse falls early

An engine knows the time only by the turns that it has counted and by the counter. With
interrupts served late, or overflows that run together, it may think that less time has
passed than has, but never more (`Held.lapsed`): a pulse that is held past a turn of the
counter can only be seen as overdue when it is.

`Whole T f n` is what every step preserves of a pulse that has to last until `T + f.due`: its
pin has not gone low before that time, and either that time has come or the fall is still
pending (`Held`). So no pulse falls early, however late interrupts are served
(`no_early_fall`).
-/

namespace ServoPulse

/-- The last overflow of the counter at or before the time `t`; the start of the timer counts
as one. -/
def Clock.lastOverflow (c : Clock) (t : Nat) : Nat :=
  c.origin + ticksPerWrap * ((t - c.origin) / ticksPerWrap)

namespace Engine

variable {P : Type} {p : Profile}

/-! ### Widths -/

/-- The clock shows no time before its timer started, and no channel is wider than the
largest target. -/
structure Bounded (e : Engine (Bench P)) : Prop where
  origin_le : e.clock.origin ≤ e.clock.now
  widths : ∀ c ∈ e.table.active, c.position ≤ maxTargetTicks ∧ c.target ≤ maxTargetTicks

namespace Bounded

variable {e e' : Engine (Bench P)}

theorem initial (config : Config) (lag now : Nat) (pins : P) :
    Bounded (fresh config lag now pins) where
  origin_le := Nat.zero_le now
  widths c hc := by
    change c ∈ List.take 0 _ at hc
    simp at hc

theorem write {c : Channel} (k : Command)
    (h : c.position ≤ maxTargetTicks ∧ c.target ≤ maxTargetTicks) :
    (k.write c).position ≤ maxTargetTicks ∧ (k.write c).target ≤ maxTargetTicks := by
  have h_aim (ticks : Nat) : (c.aim (clampTicks ticks)).position ≤ maxTargetTicks ∧
      (c.aim (clampTicks ticks)).target ≤ maxTargetTicks := by
    refine ⟨?_, clampTicks_le ticks⟩
    -- the position follows the clamped target at once, or it stays
    unfold Channel.aim
    split
    · exact clampTicks_le ticks
    · exact h.1
  cases k with
  | targetTicks servo ticks => exact h_aim ticks
  | targetUs servo us => exact h_aim _
  | speed servo limit => exact h

theorem step_widths (h : Bounded e) : ∀ c ∈ e.table.step.active,
    c.position ≤ maxTargetTicks ∧ c.target ≤ maxTargetTicks := by
  intro c hc
  rw [ChannelTable.active_step] at hc
  obtain ⟨d, hd, rfl⟩ := List.mem_map.1 hc
  obtain ⟨h_position, h_target⟩ := h.widths d hd
  exact ⟨Nat.le_trans d.nextPosition_le_max (Nat.max_le.2 ⟨h_position, h_target⟩), h_target⟩

theorem falls_short (h : Bounded e) : ∀ f ∈ e.table.step.falls, f.due ≤ maxTargetTicks := by
  intro f hf
  obtain ⟨c, servo, h_servo, -, rfl⟩ := ChannelTable.mem_falls.1 hf
  exact (h.step_widths c (List.mem_of_getElem? h_servo)).1

variable [PinBank P]

theorem serveStable : ServeStable (Bounded (P := P)) where
  lower h _ _ _ h_run := by
    obtain ⟨pins, -, rfl⟩ := run_lower_eq_ok_iff.1 h_run
    exact ⟨h.origin_le, h.widths⟩
  -- arming takes time and moves no channel
  arm {e f rest limit clock} h _ _ _ _ h_pass := by
    have h_passes := Clock.keeps_passUntil limit h_pass
    refine ⟨?_, h.widths⟩
    change clock.origin ≤ clock.now
    rw [h_passes.origin_eq]
    exact Nat.le_trans h.origin_le h_passes.now_le
  setClock {e clock} h h_now h_origin := by
    refine ⟨?_, h.widths⟩
    change clock.origin ≤ clock.now
    rw [h_now, h_origin]
    exact h.origin_le
  setWrap h := ⟨h.origin_le, h.widths⟩
  setPhase h := ⟨h.origin_le, h.widths⟩
  -- a channel does not step past its target
  beginPeriod h h_run := by
    obtain ⟨low, high, -, -, rfl⟩ := run_beginPeriod_eq_ok h_run
    exact ⟨h.origin_le, h.step_widths⟩

theorem interrupt (h : Bounded e) (h_run : Engine.interrupt.run .debug e = .ok () e') :
    Bounded e' :=
  serveStable.interrupt h h_run

theorem stableUnder {cuts : Bool} {I : Engine (Bench P) → Prop} :
    StableUnder p cuts I Bounded where
  advance {e limit event clock} _ h h_run := by
    have h_passes := Clock.keeps_advanceUntil limit h_run
    -- time does not run back behind the origin
    refine ⟨?_, h.widths⟩
    change clock.origin ≤ clock.now
    rw [h_passes.origin_eq]
    exact Nat.le_trans h.origin_le h_passes.now_le
  interrupt _ h h_run := h.interrupt h_run
  relist {e e'} _ h h_list := by
    cases h_list with
    | resume moving => exact ⟨h.origin_le, h.widths⟩
    | @list pins h_length h_nodup h_eligible =>
      -- the new channels are at rest
      refine ⟨h.origin_le, fun c hc => ?_⟩
      change c ∈ (ChannelTable.assign pins).active at hc
      rw [ChannelTable.active_assign h_length] at hc
      obtain ⟨pin, -, rfl⟩ := List.mem_map.1 hc
      exact ⟨Nat.zero_le _, Nat.zero_le _⟩
  launch _ h _ := ⟨Nat.le_refl _, h.widths⟩
  command {e moving k} _ h := by
    refine ⟨h.origin_le, fun c hc => ?_⟩
    -- a command is clamped, and it is for one channel
    rcases ChannelTable.mem_active_modify hc with hc | ⟨d, hd, rfl⟩
    · exact h.widths c hc
    · exact write k (h.widths d hd)
  shutDown {e e'} _ h _ h_run := by
    obtain ⟨pins, -, rfl⟩ := run_shutDown_eq_ok h_run
    exact ⟨h.origin_le, h.widths⟩

theorem stable [LawfulPinBank P] :
    Stable p false fun e : Engine (Bench P) => Orderly e ∧ Bounded e :=
  Orderly.stable.and stableUnder

end Bounded

/-! ### A pulse in flight -/

/-- The fall `f` is pending in the period that began with the turn of the counter at `T`.
Once another turn is counted, or waits to be, it has been completed. -/
structure Held (T : Nat) (f : Fall) (e : Engine (Bench P)) : Prop where
  mem : f ∈ e.queue.events
  turn_start : ∃ k, T = e.clock.origin + ticksPerWrap * k
  le_now : T ≤ e.clock.now
  turn_over : 1 ≤ e.wrap ∨ e.clock.overflowPending = true → T + ticksPerWrap ≤ e.clock.now

namespace Held

variable {T : Nat} {f : Fall} {e : Engine (Bench P)}

/-- Once the first turn is over, so is the pulse: it is shorter. -/
theorem over_of_turn (h : Held T f e) (h_short : f.due ≤ maxTargetTicks)
    (h_turn : 1 ≤ e.wrap ∨ e.clock.overflowPending = true) : T + f.due ≤ e.clock.now :=
  calc T + f.due ≤ T + ticksPerWrap :=
        Nat.add_le_add_left (Nat.le_of_lt (Fall.due_lt_ticksPerWrap h_short)) T
    _ ≤ e.clock.now := h.turn_over h_turn

/-- A period begins within the turn that began with the last overflow, and holds a pulse until
each of its falls. -/
theorem of_beginPeriod [PinBank P] {p : Profile} {mid : Engine (Bench P)} (h : Bounded e)
    (h_begin : beginPeriod.run p { e.quiet with wrap := 0 } = .ok () mid)
    (hf : f ∈ mid.queue.events) : Held (e.clock.lastOverflow e.clock.now) f mid := by
  have h_begun := periodBegun_of_run h_begin
  refine ⟨hf, ⟨(e.clock.now - e.clock.origin) / ticksPerWrap, ?_⟩, ?_, ?_⟩
  · -- a period begins with the overflow of a turn
    rw [h_begun.clock_eq]
    rfl
  · -- and that overflow is in the past
    have h_origin := h.origin_le
    have h_div := Nat.mul_div_le (e.clock.now - e.clock.origin) ticksPerWrap
    rw [h_begun.clock_eq]
    change e.clock.lastOverflow e.clock.now ≤ e.clock.now
    rw [Clock.lastOverflow]
    omega
  · -- the first turn of the period has just begun
    rw [h_begun.clock_eq, h_begun.wrap_eq]
    exact nofun

/-- What the engine sees as due is due. -/
theorem lapsed (h : Held T f e) (h_due : f.due ≤ e.seen) (h_short : f.due ≤ maxTargetTicks) :
    T + f.due ≤ e.clock.now := by
  by_cases h_wrap : 1 ≤ e.wrap
  · -- the pulse is shorter than a turn
    exact h.over_of_turn h_short (.inl h_wrap)
  · -- in the first turn the counter shows at most the ticks since the turn began
    obtain ⟨k, h_T⟩ := h.turn_start
    have h_le := h.le_now
    have h_seen : e.seen ≤ e.clock.count := by
      rw [seen, shown, Nat.eq_zero_of_not_pos h_wrap, Nat.zero_mul, Nat.zero_add]
      split
      · exact Nat.le_refl _
      · exact Nat.zero_le _
    have h_div := Nat.div_add_mod (e.clock.now - e.clock.origin) ticksPerWrap
    rw [Clock.count] at h_seen
    simp only [ticksPerWrap] at h_T h_seen h_div
    omega

/-- Time passes: a turn that is completed meanwhile comes after the one in which the period
began. -/
theorem passes (h : Held T f e) {c clock : Clock} (h_origin : c.origin = e.clock.origin)
    (h_now : c.now = e.clock.now) (h_flag : c.overflowPending = e.clock.overflowPending)
    (h_pass : Clock.Passes c clock) : Held T f (e.withClock clock) where
  mem := h.mem
  turn_start := by
    change ∃ k, T = clock.origin + ticksPerWrap * k
    rw [h_pass.origin_eq, h_origin]
    exact h.turn_start
  le_now := Nat.le_trans h.le_now (h_now ▸ h_pass.now_le)
  turn_over h_turn := by
    change T + ticksPerWrap ≤ clock.now
    -- what was over before is over now
    have h_le := h_pass.now_le
    rw [h_now] at h_le
    have h_old (h_before : 1 ≤ e.wrap ∨ e.clock.overflowPending = true) :
        T + ticksPerWrap ≤ clock.now := Nat.le_trans (h.turn_over h_before) h_le
    rcases h_turn with h_wrap | h_overflow
    · exact h_old (.inl h_wrap)
    rcases h_pass.overflow_iff.1 h_overflow with h_before | ⟨-, h_turns⟩
    · exact h_old (.inr (h_flag ▸ h_before))
    -- a turn completed meanwhile is the one that began at `T`, or a later one
    obtain ⟨k, h_T⟩ := h.turn_start
    have h_T_le := h.le_now
    rw [Clock.turns, Clock.turns, h_pass.origin_eq, h_origin, h_now] at h_turns
    simp only [ticksPerWrap] at h_T h_turns ⊢
    omega

end Held

/-- A pulse that has to last until `T + f.due`, with its rise before the place `n` of the
level changes: its pin has not gone low before, and either it is over or its fall is
pending. -/
structure Whole (T : Nat) (f : Fall) (n : Nat) (e : Engine (Bench (Scope P))) : Prop where
  length_le : n ≤ e.edges.length
  late : ∀ x ∈ e.edges.drop n, x.pin = f.pin → x.rising = false → StampedFrom (T + f.due) x
  over_or_held : T + f.due ≤ e.clock.now ∨ Held T f e

namespace Whole

variable {T n : Nat} {f : Fall} {e e' : Engine (Bench (Scope P))}

/-- A pulse that is over stays whole, whatever happens later. -/
theorem of_over (h : Whole T f n e) (h_over : T + f.due ≤ e.clock.now) (h_ext : Extends e e') :
    Whole T f n e' where
  length_le := Nat.le_trans h.length_le h_ext.adds.length_le
  late x hx h_pin h_fall := by
    rcases h_ext.adds.mem_drop h.length_le hx with hx | h_stamp
    · exact h.late x hx h_pin h_fall
    · exact h_stamp.mono h_over
  over_or_held := .inl (Nat.le_trans h_over h_ext.now_le)

/-- Where no level changes, a pulse stays whole if it stays held. -/
theorem of_held (h : Whole T f n e) (h_edges : e'.edges = e.edges)
    (h_now : e.clock.now ≤ e'.clock.now) (h_held : Held T f e → Held T f e') :
    Whole T f n e' where
  length_le := by
    rw [h_edges]
    exact h.length_le
  late := by
    rw [h_edges]
    exact h.late
  over_or_held := h.over_or_held.imp (fun h_over => Nat.le_trans h_over h_now) h_held

/-- What leaves the level changes, the queue and the turns alone keeps a pulse whole; of the
clock it may change the compare channel. -/
theorem frame (h : Whole T f n e) (h_edges : e'.edges = e.edges)
    (h_pending : e'.queue = e.queue ∧ e'.wrap = e.wrap)
    (h_clock : ∃ compare flag,
      e'.clock = { e.clock with compare, comparePending := flag }) : Whole T f n e' := by
  obtain ⟨h_queue, h_wrap⟩ := h_pending
  obtain ⟨compare, flag, h_clock⟩ := h_clock
  have h_now : e'.clock.now = e.clock.now := by rw [h_clock]
  refine h.of_held h_edges (Nat.le_of_eq h_now.symm) fun h_held => ⟨?_, ?_, ?_, ?_⟩
  · rw [h_queue]
    exact h_held.mem
  · rw [h_clock]
    exact h_held.turn_start
  · rw [h_clock]
    exact h_held.le_now
  · rw [h_clock, h_wrap]
    exact h_held.turn_over

variable [PinBank P] [LawfulPinBank P]

/-- Lowering a pin that looks due does not cut the pulse. -/
theorem lower {g : Fall} {rest : List Fall} (h_tied : Tied e) (h_short : f.due ≤ maxTargetTicks)
    (h : Whole T f n e) (h_queue : e.queue.events = g :: rest) (h_due : g.due ≤ e.seen)
    (h_run : (Engine.lower g rest).run p e = .ok () e') : Whole T f n e' := by
  have h_adds := lower_adds h_tied h_queue h_run
  have h_now : e'.clock.now = e.clock.now := by
    obtain ⟨pins, -, rfl⟩ := run_lower_eq_ok_iff.1 h_run
    rfl
  -- once the time of the fall has come, any change that follows is late enough
  have h_over_case (h_over : T + f.due ≤ e.clock.now) : Whole T f n e' := by
    refine h.of_over h_over ⟨Nat.le_of_eq h_now.symm, h_adds.mono ?_⟩
    rintro x rfl
    exact ⟨_, rfl, Nat.le_refl _⟩
  rcases h.over_or_held with h_over | h_held
  · exact h_over_case h_over
  by_cases h_pin : g.pin = f.pin
  · -- two pending falls of one pin are the same fall
    have h_eq : g = f := List.inj_on_of_nodup_map h_tied.pending_nodup
      (by rw [h_queue]; exact List.mem_cons_self) h_held.mem h_pin
    exact h_over_case (h_held.lapsed (h_eq ▸ h_due) h_short)
  · -- the fall of another pin leaves this one pending
    refine ⟨Nat.le_trans h.length_le h_adds.length_le, fun x hx h_x h_fall => ?_, .inr ?_⟩
    · -- the new change is of the other pin
      rcases h_adds.mem_drop h.length_le hx with hx | rfl
      · exact h.late x hx h_x h_fall
      · exact absurd h_x h_pin
    · have h_mem := h_held.mem
      rw [h_queue, List.mem_cons] at h_mem
      obtain ⟨pins, -, rfl⟩ := run_lower_eq_ok_iff.1 h_run
      exact ⟨h_mem.resolve_left fun h_eq => h_pin (congrArg Fall.pin h_eq.symm), h_held.turn_start,
        h_held.le_now, h_held.turn_over⟩

theorem fallDue (h_tied : Tied e) (h_short : f.due ≤ maxTargetTicks) (h : Whole T f n e)
    (h_run : Engine.fallDue.run .debug e = .ok () e') : Whole T f n e' := by
  have h_stable : SettleStable fun t : Engine (Bench (Scope P)) => Tied t ∧ Whole T f n t := by
    refine ⟨fun {t t' g rest} ⟨h_t, h_w⟩ h_queue h_due _ h_lower =>
      ⟨h_t.lower h_queue h_lower, h_w.lower h_t h_short h_queue h_due h_lower⟩,
      fun {t g rest limit clock} ⟨h_t, h_w⟩ _ _ _ _ h_pass =>
      ⟨h_t.of_time _ _ _, ?_⟩⟩
    have h_passes := Clock.keeps_passUntil limit h_pass
    exact h_w.of_held rfl h_passes.now_le fun h_held =>
      h_held.passes (c := t.clock.arm g.compareValue) rfl rfl rfl h_passes
  obtain ⟨e₁, ⟨-, h₁⟩, h_end⟩ := settled_of_run_fallDue h_stable ⟨h_tied, h⟩ h_run
  cases h_end with
  | empty =>
    -- the steps that end the settling change no pin
    exact h₁.frame rfl ⟨rfl, rfl⟩ ⟨_, _, rfl⟩
  | later => exact h₁.frame rfl ⟨rfl, rfl⟩ ⟨_, _, rfl⟩
  | armed => exact h₁

theorem interrupt (h_orderly : Orderly e) (h_short : f.due ≤ maxTargetTicks) (h : Whole T f n e)
    (h_run : Engine.interrupt.run .debug e = .ok () e') : Whole T f n e' := by
  rcases h.over_or_held with h_over | h_held
  · exact h.of_over h_over (extends_interrupt h_orderly h_run)
  -- an overflow to be served completes the turn, and with it the pulse
  have h_turn (h_overflow : e.clock.overflowPending = true) : T + f.due ≤ e.clock.now :=
    h_held.over_of_turn h_short (.inr h_overflow)
  have h_quiet : Whole T f n e.quiet := by
    refine h.of_held rfl (Nat.le_refl _) fun h_held => ⟨h_held.mem, h_held.turn_start,
      h_held.le_now, fun h_or => h_held.turn_over (.inl (h_or.resolve_right nofun))⟩
  have h_tied : Tied e.quiet := h_orderly.tied.of_time _ _ _
  rcases run_interrupt_eq_ok h_run with ⟨-, rfl⟩ | ⟨-, -, h_fall⟩ | ⟨-, h_overflow, -⟩
  · -- a halted engine, or no flag up
    exact h_quiet
  · -- no overflow, so no period begins and only falls follow
    exact h_quiet.fallDue h_tied h_short h_fall
  · -- the overflow shows that the pulse is over
    exact h.of_over (h_turn h_overflow) (extends_interrupt h_orderly h_run)

/-- **Whole pulses.** Every step keeps a pulse whole, as long as no stop gives up waiting. -/
theorem stableUnder (h_short : f.due ≤ maxTargetTicks) :
    StableUnder p false (Orderly (P := Scope P)) (Whole T f n) where
  -- time that passes makes no edge
  advance {e limit event clock} _ h h_run := by
    have h_passes := Clock.keeps_advanceUntil limit h_run
    exact h.of_held rfl h_passes.now_le fun h_held => h_held.passes rfl rfl rfl h_passes
  interrupt h_orderly h h_run := h.interrupt h_orderly h_short h_run
  relist {e e'} _ h h_list := by
    have h_edges := edges_relist h_list
    cases h_list with
    | resume moving => exact h.frame h_edges ⟨rfl, rfl⟩ ⟨_, _, rfl⟩
    | list => exact h.frame h_edges ⟨rfl, rfl⟩ ⟨_, _, rfl⟩
  launch {e starts} h_orderly h h_off := by
    refine h.of_held rfl (Nat.le_refl _) fun h_held => ?_
    -- an engine that is not started holds no pulse
    have h_mem := h_held.mem
    rw [h_orderly.empty_of_stopped h_off] at h_mem
    exact absurd h_mem List.not_mem_nil
  command _ h := h.frame rfl ⟨rfl, rfl⟩ ⟨_, _, rfl⟩
  shutDown {e e'} h_orderly h h_cuts h_run := by
    obtain ⟨h_now, h_adds⟩ := shutDown_adds h_orderly.tied.prepared h_run
    have h_over : T + f.due ≤ e.clock.now := by
      refine h.over_or_held.resolve_right fun h_held => ?_
      -- a stop that has waited long enough finds the queue empty
      have h_some : e.pulseInFlight = true := by
        rw [pulseInFlight, FallQueue.isEmpty]
        simpa using List.ne_nil_of_mem h_held.mem
      exact Bool.noConfusion (h_cuts h_some)
    exact h.of_over h_over ⟨Nat.le_of_eq h_now.symm, h_adds.mono fun _ => And.left⟩

/-- A pulse is whole when its pin has risen. -/
theorem of_rise {x : Edge} (h_orderly : Orderly e) (h_bounded : Bounded e)
    (h_run : Engine.interrupt.run .debug e = .ok () e') (h_rising : x.rising = true)
    (h_rise : e'.edges[n]? = some x) (h_new : e.edges.length ≤ n) :
    ∃ c servo t, c ∈ e'.table.active ∧ c.pin = x.pin ∧ c.position ≠ 0 ∧ x.time? = some t ∧
      Whole (e'.clock.lastOverflow t) ⟨c.position, servo, x.pin⟩ (n + 1) e' := by
  rcases interrupt_cases h_orderly h_run with ⟨-, h_adds⟩ | ⟨mid, -, h_opening, h_begin, h_fall⟩
  · exact absurd h_rise (not_rise_of_adds h_rising h_adds h_new)
  -- the rise is among those at the start of the period: before and after come falls alone
  obtain ⟨h_tied, h_perm⟩ := h_opening.beginPeriod h_begin
  have h_from := settledFrom_of_run_fallDue h_tied h_fall
  have h_mid : n < mid.edges.length := by
    by_contra h_late
    exact not_rise_of_adds h_rising h_from.adds (Nat.le_of_not_lt h_late) h_rise
  rw [h_from.adds.getElem?_eq h_mid] at h_rise
  obtain ⟨low, h_low, h_high⟩ := beginPeriod_adds h_opening h_begin
  have h_place : low.edges.length ≤ n := by
    by_contra h_early
    rw [h_high.getElem?_eq (Nat.lt_of_not_le h_early)] at h_rise
    exact not_rise_of_adds h_rising h_low h_new h_rise
  -- so it is that of a pulsing channel, whose fall is pending from then on
  obtain ⟨f, hf, rfl⟩ := h_high.of_getElem h_rise h_place
  obtain ⟨c, servo, h_servo, h_zero, rfl⟩ := ChannelTable.mem_falls.1 hf
  have hc : c ∈ e.table.step.active := List.mem_of_getElem? h_servo
  have h_begun := periodBegun_of_run h_begin
  have h_pending : ⟨c.position, servo, c.pin⟩ ∈ mid.queue.events :=
    h_perm.mem_iff.2 (h_begun.table_eq ▸ hf)
  have h_whole :
      Whole (e.clock.lastOverflow e.clock.now) ⟨c.position, servo, c.pin⟩ (n + 1) mid := by
    refine ⟨h_mid, fun x hx _ h_fall => ?_, .inr (.of_beginPeriod h_bounded h_begin h_pending)⟩
    -- the pins that rise with this one are all that changes in `mid` after it
    obtain ⟨g, -, rfl⟩ := h_high.of_mem_drop (Nat.le_succ_of_le h_place) hx
    exact absurd h_fall nofun
  have h_short : c.position ≤ maxTargetTicks := (h_bounded.step_widths c hc).1
  have h_origin : e'.clock.origin = e.clock.origin := by
    rw [h_from.origin_eq, h_begun.clock_eq]
    rfl
  have h_table : e'.table = e.table.step := h_from.table_eq.trans h_begun.table_eq
  -- serving the falls that have come due meanwhile keeps the pulse whole
  refine ⟨c, servo, _, h_table ▸ hc, rfl, h_zero, rfl, ?_⟩
  rw [Clock.lastOverflow, h_origin]
  exact h_whole.fallDue h_tied h_short h_fall

end Whole

section Recorded

variable {config : Config} {lag now : Nat} {e : Engine (Bench (Scope PinRecorder))}

/-- **No pulse falls early.** Whenever a pin rises in a run in which no stop gives up
waiting, it rises in an interrupt of the run, for a channel that is configured then. With `T`
the last overflow of the counter by that time, the pin does not go low before `T` plus the
position of that channel, however the run goes on and however late interrupts are served. -/
theorem no_early_fall {before after : List Edge} {x : Edge}
    (h : Steps p false (freshObserved config lag now) e)
    (h_edges : e.edges = before ++ x :: after) (h_rising : x.rising = true) :
    ∃ e₁ e₂ c t, Steps p false (freshObserved config lag now) e₁ ∧
      (∀ q, interrupt.run q e₁ = .ok () e₂) ∧ Steps p false e₂ e ∧
      e₁.edges.length ≤ before.length ∧ before.length < e₂.edges.length ∧
      c ∈ e₂.table.active ∧ c.pin = x.pin ∧ c.position ≠ 0 ∧ x.time? = some t ∧
      ∀ y ∈ after, y.pin = x.pin → y.rising = false →
        ∃ t', y.time? = some t' ∧ e₂.clock.lastOverflow t + c.position ≤ t' := by
  have h_orderly : Orderly (freshObserved config lag now) :=
    .initial PinRecorder.isHigh_new rfl config lag now
  have h_bounded : Bounded (freshObserved config lag now) := .initial config lag now _
  -- the rise in question is the one at the place of `before`
  have h_rise : e.edges[before.length]? = some x := by
    rw [h_edges, List.getElem?_append_right (Nat.le_refl _), Nat.sub_self]
    rfl
  -- the pulse is whole after the interrupt in which its pin rose
  obtain ⟨e₁, e₂, h_first, h_run, h_rest, h_old, h_new⟩ :=
    exists_interrupt_of_rise h_orderly h h_rising h_rise (Nat.zero_le _)
  obtain ⟨h_orderly₁, h_bounded₁⟩ := Bounded.stable.steps ⟨h_orderly, h_bounded⟩ h_first
  have h_orderly₂ := h_orderly₁.interrupt (h_run .debug)
  rw [(h_orderly₂.extends h_rest).adds.getElem?_eq h_new] at h_rise
  obtain ⟨c, servo, t, hc, h_pin, h_zero, h_time, h_whole₂⟩ :=
    Whole.of_rise h_orderly₁ h_bounded₁ (h_run .debug) h_rising h_rise h_old
  have h_short := ((h_bounded₁.interrupt (h_run .debug)).widths c hc).1
  -- and it stays whole in the rest of the run
  have h_stable : StableUnder p false (Orderly (P := Scope PinRecorder))
      (Whole (e₂.clock.lastOverflow t) ⟨c.position, servo, x.pin⟩ (before.length + 1)) :=
    Whole.stableUnder h_short
  have h_whole := ((Orderly.stable.and h_stable).steps ⟨h_orderly₂, h_whole₂⟩ h_rest).2
  refine ⟨e₁, e₂, c, t, h_first, h_run, h_rest, h_old, h_new, hc, h_pin, h_zero, h_time,
    fun y hy h_pin_y h_fall => ?_⟩
  -- what comes after the rise are the changes dropped here
  have h_drop : y ∈ e.edges.drop (before.length + 1) := by
    rw [h_edges, List.drop_append, List.drop_of_length_le (Nat.le_succ _), List.nil_append,
      Nat.add_sub_cancel_left]
    exact hy
  exact h_whole.late y h_drop h_pin_y h_fall

end Recorded

/-- A run whose interrupts are served 1000 and then 500 ticks late. -/
def lateRun : Option (Engine (Bench (Scope PinRecorder))) :=
  replay? .debug
    [.start (some [2]), .command (.targetTicks 0 36000), .advance 65536, .advance 1000, .interrupt,
      .advance 65536, .advance 500, .interrupt]
    (freshObserved { wrapsPerPeriod := 1 } 0 0)

theorem isSome_lateRun : lateRun.isSome = true := by decide +kernel

theorem no_early_fall_lateRun :
    ∃ e, Steps .debug false (freshObserved { wrapsPerPeriod := 1 } 0 0) e ∧
      e.edges = [.rise 66536 2, .fall 102036 2] ∧
      ∃ (e₂ : Engine (Bench (Scope PinRecorder))) (c : Channel) (t : Nat),
        c ∈ e₂.table.active ∧ c.pin = 2 ∧ t = 66536 ∧
        e₂.clock.lastOverflow t + c.position ≤ 102036 := by
  have h := steps_of_replay? (Option.some_get isSome_lateRun).symm false
  have h_edges : (lateRun.get isSome_lateRun).edges =
      [] ++ .rise 66536 2 :: [.fall 102036 2] := by decide +kernel
  obtain ⟨-, e₂, c, t, -, -, -, -, -, hc, h_pin, -, h_time, h_late⟩ := no_early_fall h h_edges rfl
  obtain ⟨t', h_t', h_le⟩ := h_late (.fall 102036 2) (by simp) rfl rfl
  obtain rfl := Option.some.inj h_t'
  exact ⟨_, h, h_edges, e₂, c, t, hc, h_pin, (Option.some.inj h_time).symm, h_le⟩

end Engine

end ServoPulse
