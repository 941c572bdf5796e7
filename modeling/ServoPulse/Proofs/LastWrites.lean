import Mathlib.Logic.Function.Basic
import ServoPulse.Proofs.Logs

/-!
# The last write wins

Seen through its calls, an engine is a store: the list of the last start that had one and was not
refused, and for each servo the last target and the last speed written since (`Store`). What the
store holds is read off the log of the run alone, and the reads of the engine answer what it holds
(`last_write_wins`), on any board, whatever happens between the calls.

The store describes the channels without their positions. Each entry of a log writes to the store
what it does to that part of the channels (`Store.Describes.write`), periods and refused starts
nothing, and so a whole log does (`Store.Describes.writeAll`).
-/

namespace ServoPulse

/-- What the calls of an engine have written. -/
structure Store where
  /-- The pins of the servos, from the last list. -/
  pins : List Nat := []
  /-- The last target of each servo, in ticks, or 0. -/
  target : Nat → Nat := fun _ => 0
  /-- The last speed of each servo, or 0. -/
  speed : Nat → Nat := fun _ => 0

namespace Store

/-- What an entry of a log writes. -/
def write (s : Store) : Entry → Store
  | .start (some pins) (.ok ()) => { pins }
  | .command (.targetTicks servo ticks) =>
    { s with target := Function.update s.target servo (min ticks 60000) }
  | .command (.targetUs servo us) =>
    { s with target := Function.update s.target servo (24 * min us 2500) }
  | .command (.speed servo limit) => { s with speed := Function.update s.speed servo limit }
  | _ => s

/-- What a log writes, from the first entry to the last. -/
def ofLog (log : List Entry) : Store := log.foldl write {}

/-- The store holds what the channels hold besides their positions. -/
structure Describes (s : Store) (t : ChannelTable) : Prop where
  count_eq : t.count = s.pins.length
  exists_get? : ∀ n < s.pins.length, ∃ c, t.get? n = some c ∧ s.pins[n]? = some c.pin ∧
    c.target = s.target n ∧ c.speed = s.speed n

namespace Describes

variable {s : Store} {t t' : ChannelTable} {x : Entry} {log : List Entry}

/-- The channels change, but for their positions, as the store does. -/
theorem modify {s' : Store} {servo : Nat} {f : Channel → Channel} (h : s.Describes t)
    (h_pins : s'.pins = s.pins)
    (h_at : ∀ c, c.target = s.target servo → c.speed = s.speed servo →
      (f c).pin = c.pin ∧ (f c).target = s'.target servo ∧ (f c).speed = s'.speed servo)
    (h_off : ∀ n, n ≠ servo → s'.target n = s.target n ∧ s'.speed n = s.speed n) :
    s'.Describes (t.modify servo f) where
  count_eq := by rw [ChannelTable.modify_count, h_pins, h.count_eq]
  exists_get? n h_n := by
    rw [h_pins] at h_n ⊢
    obtain ⟨c, h_c, h_pin, h_target, h_speed⟩ := h.exists_get? n h_n
    rw [ChannelTable.get?_modify, h_c]
    -- the channel written to
    by_cases h_servo : servo = n
    · subst h_servo
      obtain ⟨h_fpin, h_ftarget, h_fspeed⟩ := h_at c h_target h_speed
      exact ⟨f c, if_pos rfl, h_fpin ▸ h_pin, h_ftarget, h_fspeed⟩
    · -- any other channel
      obtain ⟨h_same, h_same'⟩ := h_off n (Ne.symm h_servo)
      exact ⟨c, if_neg h_servo, h_pin, h_target.trans h_same.symm, h_speed.trans h_same'.symm⟩

/-- **One entry.** What an entry does to the channels, it writes to the store. -/
theorem write (h : s.Describes t) (h_x : x.Changes t t') : (s.write x).Describes t' := by
  -- a target reaches the table clamped, as it reaches the store
  have h_target {servo ticks written : Nat} (h_ticks : ticks = written) : Describes
      { s with target := Function.update s.target servo written }
      (t.modify servo (·.aim ticks)) := by
    subst h_ticks
    refine h.modify rfl (fun c _ h_speed => ⟨rfl, ?_, h_speed⟩) fun n h_n => ⟨?_, rfl⟩
    · exact (Function.update_self servo ticks s.target).symm
    · exact Function.update_of_ne h_n ticks s.target
  cases h_x with
  | period =>
    -- a period moves positions only, which the store does not hold
    refine ⟨h.count_eq, fun n h_n => ?_⟩
    obtain ⟨c, h_c, h_rest⟩ := h.exists_get? n h_n
    exact ⟨c.step, by rw [ChannelTable.get?_step, h_c]; rfl, h_rest⟩
  | @list _ pins h_length =>
    -- a list puts its pins on channels at rest, with no target and no speed limit
    refine ⟨Nat.min_eq_left h_length, fun n (h_n : n < pins.length) => ?_⟩
    refine ⟨{ pin := pins[n] }, ?_, ?_, rfl, rfl⟩
    · rw [← ChannelTable.getElem?_active, ChannelTable.active_assign h_length, List.getElem?_map,
        List.getElem?_eq_getElem h_n]
      rfl
    · exact List.getElem?_eq_getElem h_n
  | resume => exact h
  | @refuse _ pins? error => cases pins? <;> exact h
  | command k =>
    cases k with
    | targetTicks servo ticks => exact h_target rfl
    | targetUs servo us =>
      -- microseconds are clamped and converted in either order
      exact h_target ((clampTicks_usToTicks us).trans (Nat.mul_comm _ _))
    | speed servo limit =>
      refine h.modify rfl (fun c h_target _ => ⟨rfl, h_target, ?_⟩) fun n h_n => ⟨rfl, ?_⟩
      · exact (Function.update_self servo limit s.speed).symm
      · exact Function.update_of_ne h_n limit s.speed

theorem writeAll (h : s.Describes t) (h_log : t.Follows log t') :
    (log.foldl Store.write s).Describes t' := by
  induction h_log generalizing s with
  | refl t => exact h
  | cons h_x _ ih => exact ih (h.write h_x)

end Describes

end Store

namespace Engine

variable {β : Type} {e : Engine β} {n : Nat}

theorem run_readChannel_of_some {c : Channel} (h : e.channel? n = some c) (field : Channel → Nat)
    (q : Profile) : (e.readChannel n field).run q = .ok (field c) := by
  rw [readChannel, Checked.run_map, run_servo?_of_some h]
  rfl

/-- A target that was just written in microseconds reads as at most the largest one. -/
theorem exists_run_setTargetUs {c : Channel} (h : e.channel? n = some c) (us : Nat) (q : Profile) :
    ∃ e', (setTargetUs n us).run q e = .ok () e' ∧ (e'.targetUs n).run q = .ok (min us 2500) := by
  have h_run (f : Engine β → Engine β) :
      Action.run (do if (← (← get).servo? n).isSome then modify f : Action (Engine β) Unit) q e =
        .ok () (f e) := by
    rw [Action.run_get_bind, Action.run_bind, Action.run_liftM, run_servo?_of_some h]
    rfl
  refine ⟨_, h_run _, ?_⟩
  -- the flag that something moves is not read here
  obtain ⟨moving, h_moving⟩ := refreshMoving_eq n
    { e with table := e.table.modify n (·.aim (clampTicks (usToTicks us))) }
  have h_c : ({ e with table := e.table.modify n (·.aim (clampTicks (usToTicks us))), moving } :
      Engine β).channel? n = some (c.aim (clampTicks (usToTicks us))) := by
    unfold channel? at h ⊢
    rw [ChannelTable.get?_modify, if_pos rfl, h]
    rfl
  rw [h_moving]
  refine (run_readChannel_of_some h_c _ q).trans (congrArg Except.ok ?_)
  rw [clampTicks_usToTicks]
  exact ticksToUs_usToTicks us

/-- A write that is made if a servo is found, where none is. -/
theorem run_servo?_modify_of_none {f : Engine β → Engine β} (h : e.channel? n = none)
    (q : Profile) :
    Action.run (do if (← (← get).servo? n).isSome then modify f : Action (Engine β) Unit) q e =
      match q with
      | .debug => .error (.servoOutOfRange n e.servoCount) e
      | .release => .ok () e := by
  rw [Action.run_get_bind, Action.run_bind, Action.run_liftM, run_servo?_of_none h]
  cases q <;> rfl

/-- What reads and commands do where they name a servo that is not configured. -/
theorem run_of_channel?_eq_none (h : e.channel? n = none) :
    (∀ field, (e.readChannel n field).run .release = .ok 0 ∧
      (e.readChannel n field).run .debug = .error (.servoOutOfRange n e.servoCount)) ∧
      ∀ k : Command, k.servo = n → k.exec.run .release e = .ok () e ∧
        k.exec.run .debug e = .error (.servoOutOfRange n e.servoCount) e := by
  refine ⟨fun field => ?_, fun k h_k => ?_⟩
  · simp only [readChannel, Checked.run_map, run_servo?_of_none h]
    exact ⟨rfl, trivial⟩
  · subst h_k
    cases k <;> exact ⟨run_servo?_modify_of_none h .release, run_servo?_modify_of_none h .debug⟩

/-- **The last write wins.** In every state of a run of a new engine on any board, the count and the
pins are those of the last list, and for a configured servo the target in ticks is the last one
written since that list, cut down to 60000, or 24 for each microsecond, of which 2500 count, and 0
before the first. The target in microseconds is that value divided by 24, so what was just written
in microseconds reads as at most 2500. The speed is the last one written. A servo that is not
configured has no pin; to read from it gives 0 in one profile and traps in the other, and a command
to it changes nothing and traps in the other. -/
theorem last_write_wins {β : Type} [Board β] {p : Profile} {board : β} {config : Config}
    {e : Engine β} {log : List Entry} (h : Logged p { board, config } log e) :
    e.servoCount = (Store.ofLog log).pins.length ∧
      (∀ n, e.pin? n = (Store.ofLog log).pins[n]?) ∧
      (∀ n < e.servoCount, ∀ q,
        (e.targetTicks n).run q = .ok ((Store.ofLog log).target n) ∧
        (e.targetUs n).run q = .ok ((Store.ofLog log).target n / 24) ∧
        (e.speed n).run q = .ok ((Store.ofLog log).speed n) ∧
        ∀ us, ∃ e', (setTargetUs n us).run q e = .ok () e' ∧
          (e'.targetUs n).run q = .ok (min us 2500)) ∧
      ∀ n, e.servoCount ≤ n →
        (∀ field, (e.readChannel n field).run .release = .ok 0 ∧
          (e.readChannel n field).run .debug = .error (.servoOutOfRange n e.servoCount)) ∧
        ∀ k : Command, k.servo = n → k.exec.run .release e = .ok () e ∧
          k.exec.run .debug e = .error (.servoOutOfRange n e.servoCount) e := by
  -- an empty log describes the table of a new engine
  have h_new : Store.Describes {} ({} : ChannelTable) := ⟨rfl, nofun⟩
  have h_store : (Store.ofLog log).Describes e.table := h_new.writeAll h.follows
  have h_none {n : Nat} (h_n : e.servoCount ≤ n) : e.channel? n = none :=
    if_neg (Nat.not_lt.2 h_n)
  refine ⟨h_store.count_eq, fun n => ?_, fun n h_n q => ?_, fun n h_n =>
    run_of_channel?_eq_none (h_none h_n)⟩
  · -- servos are the places of the list
    rcases Nat.lt_or_ge n (Store.ofLog log).pins.length with h_n | h_n
    · obtain ⟨c, h_c, h_pin, -⟩ := h_store.exists_get? n h_n
      rw [h_pin, pin?, channel?, h_c]
      rfl
    · rw [List.getElem?_eq_none h_n, pin?,
        h_none (Nat.le_trans (Nat.le_of_eq h_store.count_eq) h_n)]
      rfl
  · obtain ⟨c, h_c, -, h_target, h_speed⟩ := h_store.exists_get? n (h_store.count_eq ▸ h_n)
    rw [← h_target, ← h_speed]
    refine ⟨run_readChannel_of_some h_c _ q, run_readChannel_of_some h_c _ q,
      run_readChannel_of_some h_c _ q, fun us => exists_run_setTargetUs h_c us q⟩

/-- A list, targets in both units and a speed, a period, a stop, a list that is refused, a command
to a servo that is not configured, and a shorter list. -/
def writtenLog : Option (List Entry × Engine (Bench PinRecorder)) :=
  replayLog? .release
    [.op (.start (some [5, 6])), .op (.command (.targetUs 0 1500)), .op (.start (some [2, 3])),
      .op (.command (.targetTicks 0 65535)), .op (.command (.targetUs 1 700)), .op (.advance 65536),
      .op .interrupt, .op (.command (.targetUs 1 3000)), .op (.command (.speed 1 40)), .shutDown,
      .op (.start (some [7, 7])), .op (.command (.speed 4 9))]
    (freshRecorded { wrapsPerPeriod := 1 } 0 0)

theorem isSome_writtenLog : writtenLog.isSome = true := by decide +kernel

theorem last_write_wins_writtenLog :
    (writtenLog.get isSome_writtenLog).2.pin? 1 = some 3 ∧
      ∀ q, ((writtenLog.get isSome_writtenLog).2.targetTicks 0).run q = .ok 60000 ∧
        ((writtenLog.get isSome_writtenLog).2.targetUs 1).run q = .ok 2500 ∧
        ((writtenLog.get isSome_writtenLog).2.speed 1).run q = .ok 40 ∧
        (Command.speed 2 8).exec.run .debug (writtenLog.get isSome_writtenLog).2 =
          .error (.servoOutOfRange 2 2) (writtenLog.get isSome_writtenLog).2 := by
  have h_run := logged_of_replayLog? (Option.some_get isSome_writtenLog).symm
  obtain ⟨-, h_pin, h_read, h_none⟩ := last_write_wins h_run
  have h_count : (writtenLog.get isSome_writtenLog).2.servoCount = 2 := by decide +kernel
  rw [h_count] at h_read h_none
  refine ⟨(h_pin 1).trans (by decide +kernel), fun q => ⟨?_, ?_, ?_, ?_⟩⟩
  · exact (h_read 0 (by decide) q).1.trans (congrArg Except.ok (by decide +kernel))
  · exact (h_read 1 (by decide) q).2.1.trans (congrArg Except.ok (by decide +kernel))
  · exact (h_read 1 (by decide) q).2.2.1.trans (congrArg Except.ok (by decide +kernel))
  · exact ((h_none 2 (by decide)).2 (.speed 2 8) rfl).2

end Engine

end ServoPulse
