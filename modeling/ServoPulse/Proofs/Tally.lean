import ServoPulse.Proofs.BoardInvariants
import ServoPulse.Proofs.Mirroring

/-!
# How often the compare channel is armed

A `Tally` stands in front of a board and counts how often the compare channel is armed. An engine
does not notice it (`Tally.fallsMirror`): whatever an engine does, it does as well with a tally in
front of its board (`Engine.tallied`), and ends in the same state but for the count.

Wherever settling ends, the compare channel was armed at most once for each pending fall
(`Engine.ends_settle_arms`). An interrupt may begin a period before it settles. That arms nothing
and leaves as many falls at most as the queue holds, and so there are no more than six arms in any
case (`Engine.ends_interrupt_arms`).

On a bench, arming takes the lag of the board and nothing else takes time, so the count of arms
tells the time (`Tally.Punctual`, `Engine.serviceStable_punctual`).
-/

namespace ServoPulse

/-- A board and the number of times that its compare channel was armed. -/
structure Tally (β : Type) where
  board : β
  arms : Nat := 0

namespace Tally

variable {α β : Type}

/-- Runs an action of the board. -/
def onBoard (x : Action β α) : Action (Tally β) α :=
  Action.zoom Tally.board (fun board t => { t with board }) x

instance [Board β] : Board (Tally β) where
  startTimer := onBoard Board.startTimer
  stopTimer t := { t with board := Board.stopTimer t.board }
  counter t := Board.counter t.board
  armCompare value := do
    modify fun t => { t with arms := t.arms + 1 }
    onBoard (Board.armCompare value)
  disarmCompare t := { t with board := Board.disarmCompare t.board }
  takeOverflow t :=
    let (flag, board) := Board.takeOverflow t.board
    (flag, { t with board })
  takeCompare t :=
    let (flag, board) := Board.takeCompare t.board
    (flag, { t with board })
  eligible t := Board.eligible t.board
  configureOutput pin t := { t with board := Board.configureOutput pin t.board }
  setHigh pin := onBoard (Board.setHigh pin)
  setLow pin := onBoard (Board.setLow pin)
  isHigh t := Board.isHigh t.board

/-! ### Nothing else changes -/

variable {p : Profile} {X : β → Prop}

/-- A board and the same board behind a tally. -/
def Behind (b : β) (t : Tally β) : Prop := t.board = b

theorem mirrors_onBoard (x : Action β α) :
    Action.Mirrors Behind X p (· = p) x (onBoard x) := by
  rintro _ t rfl
  -- the tally goes along with the board, and its count stays
  cases h_run : x.run p t.board with
  | ok a b =>
    have h_same (q : Profile) (hq : q = p) :
        (onBoard x).run q t = .ok a { t with board := b } := by
      rw [hq, onBoard, Action.run_zoom, h_run]
    exact .ok h_same rfl
  | error trap b =>
    have h_same (q : Profile) (hq : q = p) :
        (onBoard x).run q t = .error trap { t with board := b } := by
      rw [hq, onBoard, Action.run_zoom, h_run]
    exact .error h_same rfl

variable [Board β]

theorem fallsMirror : FallsMirror (Behind (β := β)) X p (· = p) where
  counter h_behind := by
    refine .inl fun q hq => ?_
    rw [hq, ← h_behind]
    rfl
  armCompare value := by
    -- the count goes up by one, which the board does not see
    rintro _ t rfl
    have h_counted : Behind t.board { t with arms := t.arms + 1 } := rfl
    exact (mirrors_onBoard (Board.armCompare value) h_counted).of_run_eq fun _ _ => rfl
  disarmCompare h_behind := congrArg Board.disarmCompare h_behind
  setLow _ := mirrors_onBoard _

omit [Board β] in
/-- The count of arms is the tally's own. -/
theorem leaves_arms (x : Action β α) : Action.Leaves Tally.arms p (onBoard x) :=
  .zoom fun _ _ _ => rfl

end Tally

/-- A full queue takes no fall. -/
theorem FallQueue.size_le_of_push {q q' : FallQueue} {f : Fall} (h : q.push f = .ok q') :
    q'.size ≤ maxServos := by
  unfold push at h
  split at h
  · cases h
    rw [size, length_insert]
    assumption
  · cases h

namespace Engine

/-! ### Engines on tallies -/

section Twin

variable {α β : Type} {p : Profile} {e e' : Engine β} {x : Action (Engine β) α}
  {y : Action (Engine (Tally β)) α}

/-- The engine with a tally in front of its board that shows `arms`. -/
def tallied (arms : Nat) (e : Engine β) : Engine (Tally β) := e.onto ⟨e.board, arms⟩

/-- Whatever happens to an engine, the action `y` does to it behind a tally what `x` does. -/
abbrev Unnoticed (p : Profile) (x : Action (Engine β) α) (y : Action (Engine (Tally β)) α) : Prop :=
  Action.Mirrors (Facing Tally.Behind fun _ => True) (fun _ => False) p (· = p) x y

theorem facing_tallied (arms : Nat) (e : Engine β) :
    Facing Tally.Behind (fun _ => True) e (e.tallied arms) :=
  ⟨⟨⟨e.board, arms⟩, rfl, rfl⟩, fun _ _ => trivial⟩

theorem exists_run_tallied (h : Unnoticed p x y) {a : α} (h_run : x.run p e = .ok a e')
    (arms : Nat) : ∃ n, y.run p (e.tallied arms) = .ok a (e'.tallied n) := by
  have h_both := h (facing_tallied arms e)
  rw [h_run] at h_both
  obtain ⟨h_y, ⟨⟨_, n⟩, rfl, rfl⟩, -⟩ := h_both
  exact ⟨n, h_y p rfl⟩

theorem exists_endsIn_tallied (h : Unnoticed p x y) (h_end : x.EndsIn p e e') (arms : Nat) :
    ∃ n, y.EndsIn p (e.tallied arms) (e'.tallied n) := by
  -- a run that returns shows the same answer on the tallied board
  rcases h_end with ⟨a, h_run⟩ | ⟨trap, h_run⟩
  · obtain ⟨n, h_y⟩ := exists_run_tallied h h_run arms
    exact ⟨n, .inl ⟨a, h_y⟩⟩
  · -- a run that traps shows the same trap
    have h_both := h (facing_tallied arms e)
    rw [h_run] at h_both
    cases h_both with
    | error h_y h_facing =>
      obtain ⟨⟨⟨_, n⟩, rfl, rfl⟩, -⟩ := h_facing
      exact ⟨n, .inr ⟨trap, h_y p rfl⟩⟩
    | lost h_false => exact h_false.elim

variable [Board β]

theorem unnoticed_fallDue : Unnoticed (β := β) p fallDue fallDue :=
  (Tally.fallsMirror (X := fun _ => False)).fallDue

theorem unnoticed_interrupt : Unnoticed (β := β) p interrupt interrupt := by
  refine (Tally.fallsMirror (X := fun _ => False)).interrupt
    (fun pin _ => Tally.mirrors_onBoard (Board.setHigh pin)) ?_ ?_
  · rintro _ t rfl
    exact ⟨rfl, rfl⟩
  · rintro _ t rfl
    exact ⟨rfl, rfl⟩

end Twin

/-! ### How often -/

section Count

variable {α β : Type} [Board β] {p : Profile} {n : Nat} {e : Engine (Tally β)}

/-- The compare channel was armed `arms` times, and the falls of `queue` are pending. -/
def Stands (arms : Nat) (queue : FallQueue) (e : Engine (Tally β)) : Prop :=
  e.board.arms = arms ∧ e.queue = queue

omit [Board β] in
/-- Neither changes by what else is asked of the board. -/
theorem ends_onBoard (x : Action β α) (e : Engine (Tally β)) :
    (onBoard (Tally.onBoard x)).Ends p e (fun _ => Stands e.board.arms e.queue)
      (Stands e.board.arms e.queue) :=
  .zoom (Action.ends_iff_forall_endsIn.2 fun _ h_end =>
    ⟨(Tally.leaves_arms x e.board).of_endsIn h_end, rfl⟩)

theorem ends_lower (f : Fall) (rest : List Fall) (e : Engine (Tally β)) :
    (lower f rest).Ends p e (fun _ => Stands e.board.arms ⟨rest⟩) (Stands e.board.arms ⟨rest⟩) :=
  .modify_bind (ends_onBoard (Board.setLow f.pin) { e with queue := ⟨rest⟩ })

theorem ends_armCompare (value : Count) (e : Engine (Tally β)) :
    (onBoard (Board.armCompare value)).Ends p e (fun _ t => t.board.arms = e.board.arms + 1)
      fun t => t.board.arms = e.board.arms + 1 :=
  .zoom (.modify_bind (Tally.leaves_arms (Board.armCompare value) _))

/-- **Settling.** Wherever it ends, the compare channel was armed at most once for each fall. -/
theorem ends_settle_arms {now : Nat} {events : List Fall} (h : e.board.arms + events.length ≤ n) :
    (settle now events).Ends p e (fun _ t => t.board.arms ≤ n) fun t => t.board.arms ≤ n := by
  induction events generalizing e now with
  | nil =>
    -- nothing is left to arm for
    exact h
  | cons f rest ih =>
    rw [List.length_cons] at h
    -- lowering a fall arms nothing, so the falls that are left keep their share
    have h_lowered {t : Engine (Tally β)} {now : Nat} (h_t : t.board.arms + rest.length ≤ n) :
        Action.Ends p (do lower f rest; settle now rest) t (fun _ u => u.board.arms ≤ n)
          fun u => u.board.arms ≤ n := by
      refine .bind (Q := fun _ u => u.board.arms + rest.length ≤ n) ?_ fun _ u h_u => ih h_u
      refine (ends_lower f rest t).mono (fun _ u h_u => ?_) fun u h_u => ?_
      · rw [h_u.1]
        exact h_t
      · rw [h_u.1]
        exact Nat.le_of_add_right_le h_t
    refine .ite (fun _ => h_lowered (by omega)) fun _ => .get_bind (.ite (fun _ => ?_) fun _ => ?_)
    · -- the fall is for a later turn and waits for its overflow
      exact Nat.le_of_add_right_le h
    -- the fall was not lowered yet, and so the arm is the one counted for it
    refine .bind (Q := fun _ t => t.board.arms + rest.length ≤ n) ?_ fun _ t h_t => ?_
    · -- arming for the fall takes up its share
      refine (ends_armCompare f.compareValue e).mono (fun _ t h_t => ?_) fun t h_t => ?_
      · rw [h_t]
        omega
      · rw [h_t]
        omega
    · -- the fall may have come due meanwhile, and else it waits
      have h_arms := Nat.le_of_add_right_le h_t
      exact .get_bind (.liftM_bind (fun later => .ite (fun _ => h_lowered h_t) fun _ =>
        .pure h_arms) h_arms)

theorem ends_fallDue_arms (h : e.board.arms + e.queue.size ≤ n) :
    fallDue.Ends p e (fun _ t => t.board.arms ≤ n) fun t => t.board.arms ≤ n :=
  .get_bind (.liftM_bind (fun _ => ends_settle_arms h) (Nat.le_of_add_right_le h))

/-- The compare channel was armed `n` times at most, and no more falls are pending than a period can
have. -/
structure Frugal (n : Nat) (e : Engine (Tally β)) : Prop where
  arms_le : e.board.arms ≤ n
  size_le : e.queue.size ≤ maxServos

omit [Board β] in
theorem Frugal.of_stands {t : Engine (Tally β)} {queue : FallQueue} (h : Frugal n e)
    (h_size : queue.size ≤ maxServos) (h_t : Stands e.board.arms queue t) : Frugal n t := by
  obtain ⟨h_arms, rfl⟩ := h_t
  exact ⟨h_arms ▸ h.arms_le, h_size⟩

theorem preserves_lowerAll_frugal {events : List Fall} (h : events.length ≤ maxServos) :
    Action.Preserves (Frugal (β := β) n) p (lowerAll events) := by
  induction events with
  | nil => exact .pure _
  | cons f rest ih =>
    have h_rest : rest.length ≤ maxServos := Nat.le_of_succ_le h
    refine .bind (fun e h_e => ?_) fun _ => ih h_rest
    exact (ends_lower f rest e).imp fun t h_t => h_e.of_stands h_rest h_t

theorem preserves_raise_frugal (servo : Nat) (c : Channel) :
    Action.Preserves (Frugal (β := β) n) p (raise servo c) := by
  intro e h
  refine .ite (fun _ => .get_bind ?_) fun _ => .pure h
  -- a full queue takes no fall, and the pin stays low
  cases h_push : e.queue.push ⟨c.position, servo, c.pin⟩ with
  | error => exact .pure h
  | ok queue =>
    -- the fall is on the queue, and raising its pin arms nothing
    have h_queued : Frugal n { e with queue } := ⟨h.arms_le, FallQueue.size_le_of_push h_push⟩
    refine .modify_bind ((ends_onBoard (Board.setHigh c.pin) { e with queue }).imp fun t h_t => ?_)
    exact h_queued.of_stands h_queued.size_le h_t

/-- A period that begins arms nothing and leaves a fall for each channel at most. -/
theorem preserves_turn_frugal : Action.Preserves (Frugal (β := β) n) p turn := by
  have h_begin : Action.Preserves (Frugal (β := β) n) p beginPeriod := by
    intro e h
    -- the falls left over are carried out without the compare channel
    refine .get_bind (.bind (preserves_lowerAll_frugal h.size_le e h) fun _ t h_t => ?_)
    refine .modify_bind (.get_bind (.bind (Q := fun _ => Frugal n) ?_ fun _ u h_u => ?_))
    · -- and every pulse that begins puts its fall on the queue
      exact Action.Preserves.forM (fun c _ => preserves_raise_frugal c.2 c.1) _
        ⟨h_t.arms_le, h_t.size_le⟩
    · exact ⟨h_u.arms_le, h_u.size_le⟩
  intro e h
  refine .modify_bind (.get_bind (.ite (fun _ => ?_) fun _ => .pure ⟨h.arms_le, h.size_le⟩))
  exact h_begin _ ⟨h.arms_le, h.size_le⟩

/-- **Interrupts.** Wherever it ends, the compare channel was armed six times at most. -/
theorem ends_interrupt_arms (h : Frugal n e) :
    interrupt.Ends p e (fun _ t => t.board.arms ≤ n + maxServos)
      fun t => t.board.arms ≤ n + maxServos := by
  -- the falls arm no more often than the queue is long
  have h_falls (due : Bool) {t : Engine (Tally β)} (h_t : Frugal n t) :
      Action.Ends p (if due then fallDue else pure ()) t
        (fun _ u => u.board.arms ≤ n + maxServos) fun u => u.board.arms ≤ n + maxServos :=
    .ite (fun _ => ends_fallDue_arms (Nat.add_le_add h_t.arms_le h_t.size_le)) fun _ =>
      .pure (Nat.le_add_right_of_le h_t.arms_le)
  -- taking the flags arms nothing
  refine .bind (Q := fun _ => Frugal n) ⟨h.arms_le, h.size_le⟩ fun overflow t h_t => ?_
  refine .bind (Q := fun _ => Frugal n) ⟨h_t.arms_le, h_t.size_le⟩ fun compare u h_u => ?_
  refine .get_bind (.ite (fun _ => .ite (fun _ => ?_) fun _ => ?_) fun _ => .pure ?_)
  · -- a period may begin first, and arms nothing
    refine .bind (Q := fun _ => Frugal n) ?_ fun _ v h_v => h_falls (overflow || compare) h_v
    refine (preserves_turn_frugal u h_u).mono (fun _ _ => id) fun v h_v => ?_
    exact Nat.le_add_right_of_le h_v.arms_le
  · -- no overflow, so no period begins
    exact h_falls (overflow || compare) h_u
  · -- a halted engine does not serve
    exact Nat.le_add_right_of_le h_u.arms_le

end Count

end Engine

/-! ### The time that arming takes -/

namespace Bench

variable {P : Type} {b b' : Bench P}

/-- Arming the compare channel takes the lag. -/
theorem now_of_run_armCompare {value : Count} (h : (armCompare value).run .debug b = .ok () b') :
    b'.clock.now = b.clock.now + b.lag ∧ b'.lag = b.lag := by
  rw [armCompare, Action.run_modify_bind, Action.run_get_bind] at h
  obtain ⟨limit, h_limit, h_pass⟩ := Action.run_liftM_bind_eq_ok_iff.1 h
  obtain ⟨clock, h_clock, rfl⟩ := Action.run_zoom_eq_ok_iff.1 h_pass
  obtain ⟨h_lt, rfl⟩ := Checked.run_add_debug_iff.1 h_limit
  refine ⟨?_, rfl⟩
  exact (Clock.now_of_run_passUntil h_lt h_clock).trans (Nat.max_eq_right (Nat.le_add_right _ _))

end Bench

namespace Tally

variable {P : Type} {start lag : Nat} {t : Tally (Bench P)}

/-- The time since `start` is a lag for each time that the compare channel was armed. -/
structure Punctual (start lag : Nat) (t : Tally (Bench P)) : Prop where
  lag_eq : t.board.lag = lag
  now_eq : t.board.clock.now = start + t.arms * lag

theorem Punctual.armCompare [PinBank P] (h : Punctual start lag t) (value : Count) :
    (Board.armCompare value).Ends .debug t (fun _ => Punctual start lag) fun _ => True := by
  refine .modify_bind (.zoom (Action.ends_iff.2 ⟨fun _ b h_run => ?_, fun _ _ _ => trivial⟩))
  obtain ⟨h_now, h_lag⟩ := Bench.now_of_run_armCompare h_run
  refine ⟨h_lag.trans h.lag_eq, ?_⟩
  dsimp only at h_now ⊢
  rw [h_now, h.now_eq, h.lag_eq, Nat.succ_mul, Nat.add_assoc]

theorem Punctual.drive [PinBank P] (h : Punctual start lag t) (x : Nat → Action P Unit) :
    (onBoard (do Bench.onPins (x (← get).clock.now))).Ends .debug t
      (fun _ => Punctual start lag) fun _ => True :=
  .zoom (.get_bind (.zoom (Action.ends_iff.2
    ⟨fun _ _ _ => ⟨h.lag_eq, h.now_eq⟩, fun _ _ _ => trivial⟩)))

end Tally

namespace Engine

section Bounds

variable {β : Type} [Board β] {p : Profile} {e e' : Engine β}

theorem ends_fallDue_tallied (e : Engine β) :
    fallDue.Ends p (e.tallied 0) (fun _ t => t.board.arms ≤ e.queue.size)
      fun t => t.board.arms ≤ e.queue.size :=
  ends_fallDue_arms (Nat.le_of_eq (Nat.zero_add _))

theorem ends_interrupt_tallied (h_size : e.queue.size ≤ maxServos) :
    interrupt.Ends p (e.tallied 0) (fun _ t => t.board.arms ≤ maxServos)
      fun t => t.board.arms ≤ maxServos := by
  have h_start : Frugal 0 (e.tallied 0) := ⟨Nat.le_refl 0, h_size⟩
  exact (ends_interrupt_arms h_start).imp fun t h_t => by rwa [Nat.zero_add] at h_t

/-- Wherever settling ends, it armed the compare channel at most once for each pending fall. -/
theorem exists_arms_of_endsIn_fallDue (h_end : fallDue.EndsIn p e e') :
    ∃ arms ≤ e.queue.size, fallDue.EndsIn p (e.tallied 0) (e'.tallied arms) := by
  obtain ⟨arms, h_tallied⟩ := exists_endsIn_tallied unnoticed_fallDue h_end 0
  exact ⟨arms, (ends_fallDue_tallied e).of_endsIn h_tallied, h_tallied⟩

/-- Wherever an interrupt ends, it armed the compare channel six times at most. -/
theorem exists_arms_of_endsIn_interrupt (h_size : e.queue.size ≤ maxServos)
    (h_end : interrupt.EndsIn p e e') :
    ∃ arms ≤ maxServos, interrupt.EndsIn p (e.tallied 0) (e'.tallied arms) := by
  obtain ⟨arms, h_tallied⟩ := exists_endsIn_tallied unnoticed_interrupt h_end 0
  exact ⟨arms, (ends_interrupt_tallied h_size).of_endsIn h_tallied, h_tallied⟩

end Bounds

/-! ### How long it takes -/

variable {P : Type} [PinBank P] {start lag : Nat} {e e' : Engine (Bench P)}

/-- **Time.** Where no trap ends it, what an interrupt does takes a lag for each time that it arms
the compare channel. -/
theorem serviceStable_punctual :
    ServiceStable .debug (fun e : Engine (Tally (Bench P)) => e.board.Punctual start lag)
      fun _ => True where
  setHigh pin _ h := .zoom (h.drive fun now => PinBank.setHigh now pin)
  setLow pin _ h := .zoom (h.drive fun now => PinBank.setLow now pin)
  armCompare value _ h := .zoom (h.armCompare value)
  disarmCompare _ h := ⟨h.lag_eq, h.now_eq⟩
  takeOverflow _ h := ⟨h.lag_eq, h.now_eq⟩
  takeCompare _ h := ⟨h.lag_eq, h.now_eq⟩
  counter _ _ _ _ := trivial
  book _ _ h h_book := h_book.board_eq.symm ▸ h

omit [PinBank P] in
theorem punctual_tallied (e : Engine (Bench P)) :
    (e.tallied 0).board.Punctual e.clock.now e.board.lag where
  lag_eq := rfl
  now_eq := by
    rw [tallied, onto, Nat.zero_mul, Nat.add_zero]

/-- Settling takes a lag for each time that it arms the compare channel. -/
theorem exists_arms_of_run_fallDue (h_run : fallDue.run .debug e = .ok () e') :
    ∃ arms ≤ e.queue.size, fallDue.run .debug (e.tallied 0) = .ok () (e'.tallied arms) ∧
      e'.clock.now = e.clock.now + arms * e.board.lag := by
  obtain ⟨arms, h_tallied⟩ := exists_run_tallied unnoticed_fallDue h_run 0
  have h_time := (serviceStable_punctual.fallDue _ (punctual_tallied e)).of_run h_tallied
  exact ⟨arms, (ends_fallDue_tallied e).of_run h_tallied, h_tallied, h_time.now_eq⟩

/-- An interrupt takes six lags at most. -/
theorem now_le_of_run_interrupt (h_size : e.queue.size ≤ maxServos)
    (h_run : interrupt.run .debug e = .ok () e') :
    e'.clock.now ≤ e.clock.now + maxServos * e.board.lag := by
  obtain ⟨arms, h_tallied⟩ := exists_run_tallied unnoticed_interrupt h_run 0
  -- the arms of the one interrupt, counted
  have h_arms : arms ≤ maxServos := (ends_interrupt_tallied h_size).of_run h_tallied
  -- and the time they take, which is all the time that passes
  have h_time := (serviceStable_punctual.interrupt _ (punctual_tallied e)).of_run h_tallied
  calc e'.clock.now
    _ = e.clock.now + arms * e.board.lag := h_time.now_eq
    _ ≤ e.clock.now + maxServos * e.board.lag :=
      Nat.add_le_add_left (Nat.mul_le_mul_right _ h_arms) _

end Engine

end ServoPulse
