import Mathlib.Algebra.GroupWithZero.Nat
import ServoPulse.Proofs.Logs
import ServoPulse.Proofs.Ramps

/-!
# Speed limits that change

How a channel gets to its target when its speed limit is changed on the way, the engine is stopped
and resumed, and other channels are commanded. From any moment on, as long as the channel gets no
target and the engine no list, each period takes the speed in force at its start off the distance
(`position_follows_speed`), or the whole distance where there is no limit.

The speeds in force are read off the log, in which a period is entered with the channels that it
found. One entry changes the channel by at most one step (`Entry.Changes.approaches`), and what
entries do one after the other adds up (`Channel.Approaches.trans`).
-/

namespace ServoPulse

/-! ### One channel -/

/-- The channel gets from `c` to `c'` while periods begin at these speeds, in order. -/
structure Channel.Approaches (c : Channel) (speeds : List Nat) (c' : Channel) : Prop where
  target_eq : c'.target = c.target
  /-- Each period takes its speed off the distance, and one without a limit takes all of it. -/
  distance_eq : c'.distance = if 0 ∈ speeds then 0 else c.distance - speeds.sum
  /-- A position below the target does not get above it. -/
  le : c.position ≤ c.target → c'.position ≤ c'.target
  /-- A position above the target does not get below it. -/
  ge : c.target ≤ c.position → c'.target ≤ c'.position
  /-- The position does not change between the periods. -/
  still : speeds = [] → c'.position = c.position

namespace Channel.Approaches

variable {c c' c'' : Channel} {speeds speeds' : List Nat}

/-- A channel that keeps its target and its position has not moved. -/
theorem of_eq (h_target : c'.target = c.target) (h_position : c'.position = c.position) :
    c.Approaches [] c' where
  target_eq := h_target
  distance_eq := by simp [distance, h_target, h_position]
  le h := by rwa [h_target, h_position]
  ge h := by rwa [h_target, h_position]
  still _ := h_position

/-- A period moves the channel at its speed. -/
theorem step (c : Channel) : c.Approaches [c.speed] c.step where
  target_eq := c.step_target
  distance_eq := by
    simp only [distance_step, List.mem_singleton, List.sum_singleton, @eq_comm _ 0]
  le h := c.nextPosition_le_max.trans_eq (max_eq_right h)
  ge h := (min_eq_right h).symm.trans_le c.min_le_nextPosition
  still h := by cases h

/-- What two stretches take off the distance adds up. -/
theorem trans (h : c.Approaches speeds c') (h' : c'.Approaches speeds' c'') :
    c.Approaches (speeds ++ speeds') c'' where
  target_eq := h'.target_eq.trans h.target_eq
  distance_eq := by
    rw [h'.distance_eq, h.distance_eq, List.sum_append]
    -- a speed without a limit comes to the target at once, and stays there
    by_cases h_zero : 0 ∈ speeds
    · simp [h_zero]
    · simp [h_zero, Nat.sub_sub]
  le h_le := h'.le (h.le h_le)
  ge h_ge := h'.ge (h.ge h_ge)
  still h_nil := by
    -- without a speed in either part the channel has not moved
    obtain ⟨h_speeds, h_speeds'⟩ := List.append_eq_nil_iff.1 h_nil
    exact (h'.still h_speeds').trans (h.still h_speeds)

end Channel.Approaches

/-! ### One entry -/

namespace Entry

/-- Whether the entry gives servo `n` a target, or replaces the channels. -/
def redirects (n : Nat) : Entry → Bool
  | start (some _) (.ok ()) => true
  | command (.targetTicks servo _) => servo = n
  | command (.targetUs servo _) => servo = n
  | _ => false

/-- The speed of servo `n` that a period finds. -/
def speedAt? (n : Nat) : Entry → Option Nat
  | period found => (found.get? n).map Channel.speed
  | _ => none

variable {x : Entry} {t t' : ChannelTable} {n : Nat} {c : Channel}

/-- **One entry.** A channel that is not redirected is moved by at most one step, and only by a
period. -/
theorem Changes.approaches (h : x.Changes t t') (h_c : t.get? n = some c)
    (h_keeps : x.redirects n = false) :
    ∃ c', t'.get? n = some c' ∧ c.Approaches (x.speedAt? n).toList c' := by
  cases h with
  | period =>
    -- a period moves the channel by the speed it has at that moment
    refine ⟨c.step, by rw [ChannelTable.get?_step, h_c]; rfl, ?_⟩
    rw [speedAt?, h_c]
    exact .step c
  | list h_length =>
    -- a new list redirects every channel
    cases h_keeps
  | resume => exact ⟨c, h_c, .of_eq rfl rfl⟩
  | refuse => exact ⟨c, h_c, .of_eq rfl rfl⟩
  | command k =>
    rw [ChannelTable.get?_modify, h_c]
    by_cases h_servo : k.servo = n
    · rw [if_pos h_servo]
      -- a command to the channel that gives it no target gives it a speed
      cases k with
      | targetTicks servo ticks => exact absurd h_servo (of_decide_eq_false h_keeps)
      | targetUs servo us => exact absurd h_servo (of_decide_eq_false h_keeps)
      | speed servo limit => exact ⟨_, rfl, .of_eq rfl rfl⟩
    · -- a command to another channel
      rw [if_neg h_servo]
      exact ⟨c, rfl, .of_eq rfl rfl⟩

end Entry

/-! ### Runs -/

/-- The speeds of servo `n` that were in force at the starts of the periods in a log, in order. -/
def speedsAt (n : Nat) (log : List Entry) : List Nat := log.filterMap (Entry.speedAt? n)

theorem ChannelTable.Follows.approaches {t t' : ChannelTable} {log : List Entry} {n : Nat}
    {c : Channel} (h : t.Follows log t') (h_c : t.get? n = some c)
    (h_keeps : ∀ x ∈ log, x.redirects n = false) :
    ∃ c', t'.get? n = some c' ∧ c.Approaches (speedsAt n log) c' ∧
      (speedsAt n log).length = log.countP Entry.isPeriod := by
  -- by induction on the log, with the channel that the first entry leaves
  induction h generalizing c with
  | refl t => exact ⟨c, h_c, .of_eq rfl rfl, rfl⟩
  | @cons t t' t'' x log h_x h_rest ih =>
    obtain ⟨h_first, h_keeps⟩ := List.forall_mem_cons.1 h_keeps
    obtain ⟨c', h_c', h_near⟩ := h_x.approaches h_c h_first
    obtain ⟨c'', h_c'', h_nearer, h_length⟩ := ih h_c' h_keeps
    -- the first entry adds the speed of its period, where it is one
    have h_speeds : speedsAt n (x :: log) = (x.speedAt? n).toList ++ speedsAt n log := by
      unfold speedsAt
      cases h_speed : x.speedAt? n with
      | none => exact List.filterMap_cons_none h_speed
      | some s => exact List.filterMap_cons_some h_speed
    refine ⟨c'', h_c'', h_speeds ▸ h_near.trans h_nearer, ?_⟩
    rw [h_speeds, List.length_append, h_length, List.countP_cons, Nat.add_comm]
    congr 1
    -- each period is counted, and each has a speed
    cases h_x with
    | period => rw [Entry.speedAt?, h_c]; rfl
    | list | resume | refuse | command => rfl

namespace Engine

/-- **Speed limits.** From any moment of a run on any board, as long as servo `n` is given no target
and the channels are not replaced, while its speed is changed, other servos are commanded, and the
engine is stopped and resumed and interrupted at any times: the channel keeps its target, its
distance from it is zero once a period has begun without a speed limit, and is otherwise what is
left of it when the speeds in force at the starts of the periods are taken off, each period with
one of them, its position stays on its side of the target, and does not change but where a period
begins. -/
theorem position_follows_speed {β : Type} [Board β] {p : Profile} {e e' : Engine β}
    {log : List Entry} {n : Nat} {c : Channel} (h : Logged p e log e')
    (h_c : e.channel? n = some c) (h_keeps : ∀ x ∈ log, x.redirects n = false) :
    ∃ c', e'.channel? n = some c' ∧ c.Approaches (speedsAt n log) c' ∧
      (speedsAt n log).length = log.countP Entry.isPeriod :=
  h.follows.approaches h_c h_keeps

/-- Two channels, of which the first is 3500 ticks beyond its target and 1000 ticks a period fast.
-/
def farRun : Option (Engine (Bench PinRecorder)) :=
  replay? .debug
    [.start (some [2, 3]), .command (.targetTicks 0 30000), .command (.speed 0 1000),
      .command (.targetTicks 0 26500)]
    (freshRecorded { wrapsPerPeriod := 1 } 0 0)

theorem isSome_farRun : farRun.isSome = true := by decide +kernel

/-- Three periods with three speeds: the first one as it is, the second one after a command to the
other channel and a list that is refused, the third one after a stop in the middle of a pulse. -/
def slowingRun : Option (List Entry × Engine (Bench PinRecorder)) :=
  replayLog? .debug
    [.op (.advance 65536), .op .interrupt, .op (.command (.speed 0 700)),
      .op (.command (.targetUs 1 1500)), .op (.start (some [2, 2])), .op (.advance 65536),
      .op .interrupt, .op (.advance 65536), .op .interrupt, .op (.advance 65536), .op .interrupt,
      .shutDown, .op (.command (.speed 0 500)), .op (.start none), .op (.advance 65536),
      .op .interrupt]
    (farRun.get isSome_farRun)

theorem isSome_slowingRun : slowingRun.isSome = true := by decide +kernel

theorem position_follows_speed_slowingRun :
    speedsAt 0 (slowingRun.get isSome_slowingRun).1 = [1000, 700, 500] ∧
      (∃ c, (farRun.get isSome_farRun).channel? 0 = some c ∧ c.distance = 3500) ∧
      ∃ c', (slowingRun.get isSome_slowingRun).2.channel? 0 = some c' ∧ c'.distance = 1300 := by
  have h_speeds : speedsAt 0 (slowingRun.get isSome_slowingRun).1 = [1000, 700, 500] := by
    decide +kernel
  have h_c : (farRun.get isSome_farRun).channel? 0 =
      some { pin := 2, target := 26500, position := 30000, speed := 1000 } := by decide +kernel
  have h_run := logged_of_replayLog? (Option.some_get isSome_slowingRun).symm
  obtain ⟨c', h_c', h_near, -⟩ := position_follows_speed h_run h_c (by decide +kernel)
  refine ⟨h_speeds, ⟨_, h_c, by decide +kernel⟩, c', h_c', ?_⟩
  rw [h_near.distance_eq, h_speeds]
  decide

end Engine

end ServoPulse
