import ServoPulse.Proofs.BenchTracking
import ServoPulse.Proofs.Replay
import ServoPulse.Proofs.Returning
import ServoPulse.Proofs.Tally

/-!
# Rounds of settling

Arming the compare channel takes time, in which the fall that it is armed for may come due. Settling
then goes on, and so it is a loop (`Engine.run_fallDue`): each round (`Engine.settleOnce`) looks at
the clock, lowers what is due, arms the compare channel for the next fall and looks at the clock
again.

The elapsed time is no measure for this loop, as it goes back when the counter wraps around. What
goes down is the number of pending falls. A further round begins where the first fall was found due
(`Engine.Overdue`), and it reads the same time, so it takes that fall off the queue
(`Engine.ends_settleOnce_of_overdue`). Hence there are no more further rounds than pending falls
(`Engine.exists_repeats_settleOnce`), whatever the clock does while the compare channel is armed.
-/

namespace ServoPulse

/-! ### Loops -/

namespace Action

variable {σ : Type} {p : Profile}

/-- A loop that repeats `x` for as long as it answers `true`, with the states in which it starts
over and the outcome. -/
inductive Repeats (x : Action σ Bool) (p : Profile) :
    σ → List σ → EStateM.Result Trap σ Unit → Prop
  | done {s s' : σ} (h_last : x.run p s = .ok false s') : Repeats x p s [] (.ok () s')
  | trap {s s' : σ} {trap : Trap} (h_last : x.run p s = .error trap s') :
      Repeats x p s [] (.error trap s')
  | again {s t : σ} {again : List σ} {result : EStateM.Result Trap σ Unit}
      (h_first : x.run p s = .ok true t) (h_rest : Repeats x p t again result) :
      Repeats x p s (t :: again) result

theorem run_bind_congr {α β : Type} {x : Action σ α} {f g : α → Action σ β} {s : σ}
    (h : ∀ a t, x.run p s = .ok a t → (f a).run p t = (g a).run p t) :
    (x >>= f).run p s = (x >>= g).run p s := by
  rw [run_bind, run_bind]
  cases h_run : x.run p s with
  | ok a t => exact h a t h_run
  | error => rfl

/-- **Loops.** A loop comes to its end where each further repetition leaves less than it found, and
starts over no more often than there is something left. -/
theorem exists_repeats {x : Action σ Bool} {y : Action σ Unit} {I : σ → Prop} (left : σ → Nat)
    (h_loop : ∀ s, y.run p s = (do if ← x then y : Action σ Unit).run p s)
    (h_again : ∀ s t, x.run p s = .ok true t → I t ∧ 0 < left t)
    (h_less : ∀ s t, I s → x.run p s = .ok true t → left t < left s) {s : σ} {n : Nat}
    (h_first : ∀ t, x.run p s = .ok true t → left t ≤ n) :
    ∃ again, Repeats x p s again (y.run p s) ∧ again.length ≤ n ∧ ∀ t ∈ again, I t := by
  -- the bound is for what is left where the loop starts over: the first run may leave all there is
  induction n using Nat.strongRecOn generalizing s with
  | ind n ih =>
    rw [h_loop, run_bind]
    cases h_run : x.run p s with
    | error trap t =>
      -- the loop ends with a trap, with no further round, or with one more
      exact ⟨[], .trap h_run, Nat.zero_le n, nofun⟩
    | ok more t =>
      cases more with
      | false => exact ⟨[], .done h_run, Nat.zero_le n, nofun⟩
      | true =>
        -- one more round, with less left than before
        obtain ⟨h_t, h_pos⟩ := h_again s t h_run
        have h_le : left t ≤ n := h_first t h_run
        have h_next (u : σ) (h_u : x.run p t = .ok true u) : left u ≤ left t - 1 :=
          Nat.le_sub_one_of_lt (h_less t u h_t h_u)
        obtain ⟨again, h_rest, h_length, h_all⟩ := ih (left t - 1) (by omega) h_next
        refine ⟨t :: again, .again h_run h_rest, ?_, List.forall_mem_cons.2 ⟨h_t, h_all⟩⟩
        rw [List.length_cons]
        omega

end Action

namespace Engine

section Board

variable {β : Type} [Board β] {p : Profile} {e t : Engine β} {events : List Fall} {now : Nat}

/-! ### A round -/

/-- Lowers the pins of the falls due by `now`, earliest first. -/
def lowerDue (now : Nat) : List Fall → Action (Engine β) Unit
  | [] => pure ()
  | f :: rest => do
    if f.due ≤ now then
      lower f rest
      lowerDue now rest

/-- Arms the compare channel for the next fall, and tells whether that came due meanwhile. -/
def armNext : Action (Engine β) Bool := do
  let e ← get
  match e.queue.peek? with
  | none =>
    changeBoard Board.disarmCompare
    modify fun e => { e with phase := .idle }
    return false
  | some f =>
    if f.wrap ≠ e.wrap then
      changeBoard Board.disarmCompare
      return false
    else
      onBoard (Board.armCompare f.compareValue)
      let later ← (← get).elapsed
      return f.due ≤ later

/-- **A round.** Lowers what is due and arms the compare channel. Another round is needed if the
next fall came due meanwhile. -/
def settleOnce : Action (Engine β) Bool := do
  let e ← get
  lowerDue (← e.elapsed) e.queue.events
  armNext

/-! ### The loop -/

omit [Board β] in
theorem leaves_queue_onBoard {α : Type} (x : Action β α) :
    Action.Leaves (σ := Engine β) Engine.queue p (onBoard x) :=
  .zoom fun _ _ _ => rfl

theorem ends_lower_queue (f : Fall) (rest : List Fall) (e : Engine β) :
    (lower f rest).Ends p e (fun _ t => t.queue.events = rest) fun t => t.queue.events = rest :=
  .modify_bind ((leaves_queue_onBoard (Board.setLow f.pin) { e with queue := ⟨rest⟩ }).imp
    fun _ h_t => congrArg FallQueue.events h_t)

theorem run_fallDue_of_elapsed (h : e.elapsed.run p = .ok now) :
    fallDue.run p e = (settle now e.queue.events).run p e := by
  rw [fallDue, Action.run_get_bind, Action.run_bind, Action.run_liftM, h]

/-- Settling is a round, and starts over if that was not enough. -/
theorem run_settle (h_queue : e.queue.events = events) :
    (settle now events).run p e
      = (do lowerDue now events; if ← armNext then fallDue : Action (Engine β) Unit).run p e := by
  induction events generalizing e now with
  | nil =>
    -- an empty queue: the rest of the round disarms, as settling does
    have h_peek : e.queue.peek? = none := by rw [FallQueue.peek?, h_queue]; rfl
    simp [settle, lowerDue, armNext, changeBoard, h_peek]
  | cons f rest ih =>
    have h_peek : e.queue.peek? = some f := by rw [FallQueue.peek?, h_queue]; rfl
    by_cases h_due : f.due ≤ now
    · -- due: lowered by both, and the rest is the induction hypothesis
      rw [settle, lowerDue, if_pos h_due, if_pos h_due, bind_assoc]
      exact Action.run_bind_congr fun _ t h_run => ih ((ends_lower_queue f rest e).of_run h_run)
    rw [settle, lowerDue, if_neg h_due, if_neg h_due, pure_bind, armNext, bind_assoc,
      Action.run_get_bind, Action.run_get_bind, h_peek]
    by_cases h_wrap : f.wrap ≠ e.wrap
    · -- of a later turn: both give the compare channel up
      simp [h_wrap]
    dsimp only
    rw [if_neg h_wrap, if_neg h_wrap, bind_assoc]
    refine Action.run_bind_congr fun _ t h_arm => ?_
    -- arming leaves the queue alone
    have h_t : t.queue = e.queue := (leaves_queue_onBoard _ e).of_run h_arm
    rw [Action.run_get_bind, bind_assoc, Action.run_get_bind, bind_assoc]
    refine Action.run_bind_congr fun later u h_later => ?_
    obtain ⟨h_read, rfl⟩ := Action.run_liftM_eq_ok_iff.1 h_later
    rw [pure_bind]
    by_cases h_passed : f.due ≤ later
    · -- starting over reads the same time, and so it begins with the fall that was passed
      simp only [h_passed, if_true, decide_true]
      rw [run_fallDue_of_elapsed h_read, h_t, h_queue, settle, if_pos h_passed]
    · -- still ahead: both end here
      simp only [h_passed, if_false, decide_false, Bool.false_eq_true]

/-- **The loop.** Settling repeats a round for as long as another one is needed. -/
theorem run_fallDue :
    fallDue.run p e = (do if ← settleOnce then fallDue : Action (Engine β) Unit).run p e := by
  conv_lhs => rw [fallDue]
  simp only [settleOnce, bind_assoc]
  refine Action.run_bind_congr fun _ t h_get => Action.run_bind_congr fun now u h_now => ?_
  obtain ⟨-, rfl⟩ := Action.run_liftM_eq_ok_iff.1 h_now
  cases h_get
  exact run_settle rfl

/-! ### How often it is repeated -/

/-- The first pending fall is due, as the clock reads now. -/
def Overdue (p : Profile) (e : Engine β) : Prop :=
  ∃ f rest now, e.queue.events = f :: rest ∧ e.elapsed.run p = .ok now ∧ f.due ≤ now

theorem Overdue.size_pos (h : Overdue p e) : 0 < e.queue.size := by
  obtain ⟨f, rest, _, h_queue, -, -⟩ := h
  rw [FallQueue.size, h_queue]
  exact Nat.succ_pos _

theorem ends_lowerDue (h_queue : e.queue.events = events) :
    (lowerDue now events).Ends p e (fun _ t => t.queue.events <:+ events)
      fun t => t.queue.events <:+ events := by
  induction events generalizing e with
  | nil => exact .pure ⟨[], h_queue⟩
  | cons f rest ih =>
    refine .ite (fun _ => ?_) fun _ => .pure ⟨[], h_queue⟩
    -- the first fall is gone, and more may follow it
    refine ((ends_lower_queue f rest e).mono (fun _ _ => id) fun t h_t => ⟨[f], ?_⟩).bind
      fun _ t h_t => (ih h_t).imp fun u h_u => h_u.trans (List.suffix_cons f rest)
    rw [h_t]
    rfl

/-- If the first fall is due, it is lowered. -/
theorem ends_lowerDue_of_due {f : Fall} {rest : List Fall} (h_due : f.due ≤ now) (e : Engine β) :
    (lowerDue now (f :: rest)).Ends p e (fun _ t => t.queue.events <:+ rest)
      fun t => t.queue.events <:+ rest := by
  rw [lowerDue, if_pos h_due]
  exact ((ends_lower_queue f rest e).mono (fun _ _ => id) fun t h_t => ⟨[], h_t⟩).bind
    fun _ t h_t => ends_lowerDue h_t

theorem leaves_queue_armNext : Action.Leaves (σ := Engine β) Engine.queue p armNext := by
  refine .get_bind fun e => ?_
  cases e.queue.peek? with
  | none =>
    exact .bind (.modify fun _ => rfl) fun _ => .bind (.modify fun _ => rfl) fun _ => .pure _
  | some f =>
    refine .ite (.bind (.modify fun _ => rfl) fun _ => .pure _) ?_
    refine .bind (leaves_queue_onBoard _) fun _ => .get_bind fun t => ?_
    exact .bind (.liftM _) fun _ => .pure _

/-- A round only takes falls off the queue. -/
theorem ends_settleOnce (e : Engine β) :
    settleOnce.Ends p e (fun _ t => t.queue.events <:+ e.queue.events)
      fun t => t.queue.events <:+ e.queue.events := by
  refine .get_bind (.liftM_bind (fun now => ?_) (List.suffix_refl _))
  refine .bind (ends_lowerDue rfl) fun _ t h_t => ?_
  exact (leaves_queue_armNext t).imp fun u h_u => by rwa [h_u]

/-- A round that begins where the first fall is overdue takes that off the queue. -/
theorem ends_settleOnce_of_overdue (h : Overdue p e) :
    settleOnce.Ends p e (fun _ t => ∃ done ≠ [], e.queue.events = done ++ t.queue.events)
      fun t => ∃ done ≠ [], e.queue.events = done ++ t.queue.events := by
  obtain ⟨f, rest, now, h_queue, h_read, h_due⟩ := h
  refine Action.Ends.imp (E := fun t => t.queue.events <:+ rest) ?_ fun t h_t => ?_
  · refine .get_bind (.liftM_bind_of_run (fun now' h_now => ?_) fun trap h_trap => ?_)
    · -- the round reads the time at which the fall was found due
      obtain rfl : now = now' := Except.ok.inj (h_read.symm.trans h_now)
      rw [h_queue]
      refine (ends_lowerDue_of_due h_due e).bind fun _ t h_t => ?_
      exact (leaves_queue_armNext t).imp fun u h_u => h_u.symm ▸ h_t
    · rw [h_read] at h_trap
      cases h_trap
  · obtain ⟨done, rfl⟩ := h_t
    exact ⟨f :: done, List.cons_ne_nil f done, h_queue⟩

/-- Where the compare channel was armed too late, the next fall is overdue. -/
theorem overdue_of_run_armNext (h : armNext.run p e = .ok true t) : Overdue p t := by
  rw [armNext, Action.run_get_bind] at h
  cases h_peek : e.queue.peek? with
  | none =>
    -- nothing to arm for, and no further round
    rw [h_peek] at h
    cases h
  | some f =>
    rw [h_peek] at h
    dsimp only at h
    by_cases h_wrap : f.wrap ≠ e.wrap
    · -- nor for a fall of a later turn
      rw [if_pos h_wrap] at h
      cases h
    rw [if_neg h_wrap] at h
    obtain ⟨_, u, h_arm, h⟩ := Action.run_bind_eq_ok_iff.1 h
    obtain ⟨later, h_later, h⟩ := Action.run_liftM_bind_eq_ok_iff.1 h
    obtain ⟨h_due, rfl⟩ := Action.run_pure_eq_ok_iff.1 h
    -- arming leaves the queue alone, so the fall that was passed is still the first one
    have h_queue : u.queue = e.queue := (leaves_queue_onBoard _ e).of_run h_arm
    rw [FallQueue.peek?, ← h_queue] at h_peek
    obtain ⟨rest, h_events⟩ := List.head?_eq_some_iff.1 h_peek
    exact ⟨f, rest, later, h_events, h_later, of_decide_eq_true h_due⟩

theorem overdue_of_run_settleOnce (h : settleOnce.run p e = .ok true t) : Overdue p t := by
  rw [settleOnce, Action.run_get_bind] at h
  obtain ⟨now, -, h⟩ := Action.run_liftM_bind_eq_ok_iff.1 h
  obtain ⟨_, u, -, h_arm⟩ := Action.run_bind_eq_ok_iff.1 h
  exact overdue_of_run_armNext h_arm

/-- **Rounds.** Settling comes to its end, and there are no more further rounds than falls. Each of
them begins where a fall is overdue. -/
theorem exists_repeats_settleOnce (e : Engine β) :
    ∃ again, Action.Repeats settleOnce p e again (fallDue.run p e) ∧
      again.length ≤ e.queue.size ∧ ∀ t ∈ again, Overdue p t := by
  refine Action.exists_repeats (fun t => t.queue.size) (fun _ => run_fallDue)
    (fun t u h_run => ?_) (fun t u h_t h_run => ?_) fun t h_run => ?_
  · -- a round that calls for another leaves a fall overdue
    have h_u : Overdue p u := overdue_of_run_settleOnce h_run
    exact ⟨h_u, h_u.size_pos⟩
  · -- such a round lowers that fall, so the queue gets shorter
    obtain ⟨done, h_done, h_queue⟩ := (ends_settleOnce_of_overdue h_t).of_run h_run
    rw [FallQueue.size, FallQueue.size, h_queue, List.length_append]
    exact Nat.lt_add_of_pos_left (List.length_pos_iff.2 h_done)
  · exact ((ends_settleOnce e).of_run h_run).length_le

end Board

section Bench

variable {P : Type} [PinBank P] {e e' t : Engine (Bench P)}

/-! ### How it ends -/

/-- Nothing is due: no fall is pending, or the earliest one is ahead of the elapsed time. -/
inductive AtRest (e : Engine (Bench P)) : Prop
  | empty (h_queue : e.queue.events = []) (h_compare : e.clock.compare = none)
      (h_phase : e.phase = .idle)
  | ahead {f : Fall} {rest : List Fall} {now : Nat} (h_queue : e.queue.events = f :: rest)
      (h_first : ∀ g ∈ rest, f.due ≤ g.due) (h_now : e.elapsed.run .debug = .ok now)
      (h_due : now < f.due)

/-- In the course of settling the queue stays in order, and the clock can be read. -/
structure InOrder (e : Engine (Bench P)) : Prop where
  sorted : e.queue.events.Pairwise (· ≤ ·)
  origin_le : e.clock.running = true → e.clock.origin ≤ e.clock.now

theorem settleStable_inOrder : SettleStable (InOrder (P := P)) where
  lower h h_queue _ _ h_run := by
    -- the rest of a sorted queue is sorted
    obtain ⟨pins, -, rfl⟩ := run_lower_eq_ok_iff.1 h_run
    exact ⟨(List.pairwise_cons.1 (h_queue ▸ h.sorted)).2, h.origin_le⟩
  arm {t f rest limit clock} h _ _ _ _ h_pass := by
    -- arming lets time pass and leaves the origin where it was
    have h_passes := Clock.keeps_passUntil limit h_pass
    refine ⟨h.sorted, fun h_run => ?_⟩
    calc clock.origin
      _ = t.clock.origin := h_passes.origin_eq
      _ ≤ t.clock.now := h.origin_le (h_passes.running_eq.symm.trans h_run)
      _ ≤ clock.now := h_passes.now_le

theorem InOrder.ahead {f : Fall} {rest : List Fall} (h : InOrder e)
    (h_queue : e.queue.events = f :: rest) (h_due : e.seen < f.due) : AtRest e := by
  have h_sorted : (f :: rest).Pairwise (· ≤ ·) := h_queue ▸ h.sorted
  exact .ahead h_queue
    (fun g h_g => FallQueue.first_due_le h_sorted (List.mem_cons_of_mem f h_g))
    (run_elapsed_of_origin_le h.origin_le) h_due

/-- **The end.** Settling returns where nothing is due. -/
theorem atRest_of_run_fallDue (h_sorted : e.queue.events.Pairwise (· ≤ ·))
    (h_run : fallDue.run .debug e = .ok () e') : AtRest e' := by
  have h_start : InOrder e := by
    -- the clock was read when settling began
    refine ⟨h_sorted, ?_⟩
    rw [fallDue, Action.run_get_bind] at h_run
    exact (run_elapsed_bind_eq_ok h_run).1
  obtain ⟨t, h_t, h_end⟩ := settled_of_run_fallDue settleStable_inOrder h_start h_run
  cases h_end with
  | empty h_queue =>
    -- nothing is left
    exact .empty h_queue rfl rfl
  | later h_queue h_due =>
    -- disarmed for a fall of a later turn
    have h_disarmed : InOrder (t.withClock t.clock.disarm) := ⟨h_t.sorted, h_t.origin_le⟩
    exact h_disarmed.ahead h_queue h_due
  | armed h_queue h_due =>
    -- armed for a fall of this turn
    exact h_t.ahead h_queue h_due

end Bench

/-! ### The whole of it -/

/-- **Bounded settling.** Whatever the lag, settling comes to its end. It starts over no more often
than falls are pending, and takes falls off the queue each time. Wherever it ends, it armed the
compare channel at most once for each fall that was pending. It returns if there is room for that;
then nothing is due, and a lag has passed for each arm. Hence an interrupt arms the compare channel
six times at most. -/
theorem bounded_settling {p : Profile} {e : Engine (Bench PinRecorder)}
    (h_sorted : e.queue.events.Pairwise (· ≤ ·)) :
    (∃ again, Action.Repeats settleOnce p e again (fallDue.run p e) ∧
        again.length ≤ e.queue.size ∧ ∀ t ∈ again, ∀ u, settleOnce.EndsIn p t u →
          ∃ done ≠ [], t.queue.events = done ++ u.queue.events) ∧
      (∀ e', fallDue.EndsIn p e e' →
        ∃ arms ≤ e.queue.size, fallDue.EndsIn p (e.tallied 0) (e'.tallied arms)) ∧
      (Spare e.queue.size e.queue.size e → ∃ e', ∀ q, fallDue.run q e = .ok () e') ∧
      (∀ e', fallDue.run .debug e = .ok () e' → AtRest e' ∧
        ∃ arms ≤ e.queue.size, fallDue.run .debug (e.tallied 0) = .ok () (e'.tallied arms) ∧
          e'.clock.now = e.clock.now + arms * e.board.lag) ∧
      (e.queue.size ≤ maxServos →
        (∀ e', interrupt.EndsIn p e e' →
          ∃ arms ≤ maxServos, interrupt.EndsIn p (e.tallied 0) (e'.tallied arms)) ∧
        ∀ e', interrupt.run .debug e = .ok () e' →
          e'.clock.now ≤ e.clock.now + maxServos * e.board.lag) := by
  refine ⟨?_, fun e' => exists_arms_of_endsIn_fallDue, fun h_spare => ?_, fun e' h_run => ?_,
    fun h_size => ⟨fun e' => exists_arms_of_endsIn_interrupt h_size, fun e' =>
      now_le_of_run_interrupt h_size⟩⟩
  · obtain ⟨again, h_repeats, h_length, h_overdue⟩ := exists_repeats_settleOnce (p := p) e
    exact ⟨again, h_repeats, h_length, fun t h_t u h_end =>
      (ends_settleOnce_of_overdue (h_overdue t h_t)).of_endsIn h_end⟩
  · -- what debug returns, release returns as well
    obtain ⟨⟨⟩, e', h_run, -⟩ := Spare.fallDue (n := 0) h_spare
    have h_now : e.clock.now < Clock.instants := by
      have h_time := h_spare.time
      rw [Clock.instants]
      omega
    exact ⟨e', (run_of_run_debug PinRecorder.pinsTrack.board.toFallsTrack.fallDue h_now h_run).1⟩
  · exact ⟨atRest_of_run_fallDue h_sorted h_run, exists_arms_of_run_fallDue h_run⟩

/-- An engine on a board whose counter makes more than a turn while the compare channel is armed.
Three pins rose 50 ticks ago, and a match is pending. -/
def wrappingLag : Engine (Bench PinRecorder) where
  board :=
    { clock := { now := 65586, running := true, comparePending := true, starts := 1 }
      lag := 65606
      pins := [2, 3, 4].foldl (fun r pin => r.setState pin (.high 65536)) {} }
  config := {}
  started := true
  phase := .emitting
  queue := ⟨[⟨100, 0, 2⟩, ⟨150, 1, 3⟩, ⟨60000, 2, 4⟩]⟩

theorem spare_wrappingLag : Spare 3 3 wrappingLag where
  origin_le := by decide
  room := by
    -- the three pins rose at the start, which is not after now
    have h_rose (t : Nat) (h_t : PinState.high 65536 = .high t) : t ≤ 65586 := by
      cases h_t
      decide
    have h_one := (PinRecorder.hasRoom_new 65586).setState
      (by decide : 2 ∈ PinRecorder.eligiblePins) h_rose rfl rfl
    have h_two := h_one.setState (by decide : 3 ∈ PinRecorder.eligiblePins) h_rose rfl rfl
    have h_three := h_two.setState (by decide : 4 ∈ PinRecorder.eligiblePins) h_rose rfl rfl
    exact RoomyPinBank.of_faults (P := PinRecorder) h_three rfl (by decide)
  time := by decide

/-- Two falls come due while the compare channel is armed for them, and the third is armed in time:
three arms, the most that there can be. -/
theorem bounded_settling_wrappingLag :
    ∃ e', (∀ q, fallDue.run q wrappingLag = .ok () e') ∧ AtRest e' ∧
      (∃ again, Action.Repeats settleOnce .debug wrappingLag again (.ok () e') ∧
        again.length ≤ 3) ∧
      fallDue.run .debug (wrappingLag.tallied 0) = .ok () (e'.tallied 3) ∧
      e'.clock.now = wrappingLag.clock.now + 3 * wrappingLag.board.lag ∧
      ∃ t, interrupt.run .debug wrappingLag = .ok () t ∧
        t.clock.now ≤ wrappingLag.clock.now + 6 * wrappingLag.board.lag := by
  obtain ⟨⟨again, h_repeats, h_length, -⟩, -, h_returns, h_end, h_interrupt⟩ :=
    bounded_settling (p := .debug) (e := wrappingLag) (by decide)
  obtain ⟨e', h_run⟩ := h_returns spare_wrappingLag
  obtain ⟨h_rest, arms, -, h_tallied, h_now⟩ := h_end e' (h_run .debug)
  -- the time is computed, and the number of arms follows from it
  have h_late : e'.clock.now = wrappingLag.clock.now + 3 * wrappingLag.board.lag := by
    have h_eval : (fallDue.result? .debug wrappingLag).map (fun r => r.2.clock.now)
        = some (wrappingLag.clock.now + 3 * wrappingLag.board.lag) := by decide +kernel
    rw [Action.result?, h_run .debug] at h_eval
    exact Option.some.inj h_eval
  obtain rfl : arms = 3 := by
    have h_lag : 0 < wrappingLag.board.lag := by decide
    exact Nat.eq_of_mul_eq_mul_right h_lag (Nat.add_left_cancel (h_now.symm.trans h_late))
  obtain ⟨⟨⟨⟩, t⟩, h_t⟩ := Option.isSome_iff_exists.1
    (by decide +kernel : (interrupt.result? .debug wrappingLag).isSome = true)
  have h_run_t := Action.run_eq_ok_of_result? h_t
  exact ⟨e', h_run, h_rest, ⟨again, h_run .debug ▸ h_repeats, h_length⟩, h_tallied, h_now, t,
    h_run_t, (h_interrupt (by decide)).2 t h_run_t⟩

end Engine

end ServoPulse
