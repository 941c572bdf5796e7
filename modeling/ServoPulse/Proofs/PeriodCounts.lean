import ServoPulse.Proofs.Tracking

/-!
# The count of periods

An engine counts the periods that it begins and never looks at the count. So whatever it serves,
and however it is shut down, it does the same from any other count, and adds as many periods to it
(`tracks_recount_interrupt`, `tracks_recount_shutDown`).
-/

namespace ServoPulse

/-- An action does what it does. -/
theorem Action.tracks_self {σ α : Type} {p : Profile} (x : Action σ α) :
    Action.Tracks Eq p (· = p) x x := by
  rintro s _ rfl a s' h_run
  exact ⟨s', fun q h_q => h_q ▸ h_run, rfl⟩

namespace Engine

variable {β : Type} {p : Profile}

/-- The engine with `k` more periods counted. -/
def recount (k : UInt32) (e : Engine β) : Engine β := { e with periods := e.periods + k }

/-- The second engine is the first one with `k` more periods counted. -/
def Recounted (k : UInt32) (e t : Engine β) : Prop := t = e.recount k

theorem tracks_recount_onBoard {k : UInt32} {α : Type} (x : Action β α) :
    Action.Tracks (Recounted k) p (· = p) (onBoard x) (onBoard x) := by
  refine (Action.tracks_self x).zoom ?_ ?_
  · rintro e _ rfl
    rfl
  · rintro e _ b _ rfl rfl
    rfl

theorem tracks_recount_modify {k : UInt32} {f : Engine β → Engine β}
    (h : ∀ e, f (e.recount k) = (f e).recount k) :
    Action.Tracks (Recounted k) p (· = p) (modify f : Action (Engine β) PUnit) (modify f) := by
  refine .modify ?_
  rintro e _ rfl
  exact h e

variable [Board β] {k : UInt32}

theorem tracks_recount_elapsed_bind {α : Type} {x y : Nat → Action (Engine β) α} {e : Engine β}
    (h : ∀ now, Action.Tracks (Recounted k) p (· = p) (x now) (y now)) :
    Action.Tracks (Recounted k) p (· = p) (liftM e.elapsed >>= x)
      (liftM (e.recount k).elapsed >>= y) := by
  have h_elapsed : Checked.Tracks p (· = p) e.elapsed (e.recount k).elapsed :=
    fun _ h_run _ h_q => h_q ▸ h_run
  exact .liftM_bind h_elapsed fun now _ => h now

/-! ### Falls -/

theorem tracks_recount_lower (f : Fall) (rest : List Fall) :
    Action.Tracks (Recounted k) p (· = p) (lower (β := β) f rest) (lower f rest) :=
  .bind (tracks_recount_modify fun _ => rfl) fun _ => tracks_recount_onBoard _

theorem tracks_recount_lowerAll (events : List Fall) :
    Action.Tracks (Recounted k) p (· = p) (lowerAll (β := β) events) (lowerAll events) := by
  induction events with
  | nil => exact .pure ()
  | cons f rest ih => exact (tracks_recount_lower f rest).bind fun _ => ih

theorem tracks_recount_settle (now : Nat) (events : List Fall) :
    Action.Tracks (Recounted k) p (· = p) (settle (β := β) now events) (settle now events) := by
  -- induction on the queue; no round of the loop looks at the count
  induction events generalizing now with
  | nil =>
    exact .bind (tracks_recount_modify fun _ => rfl) fun _ => tracks_recount_modify fun _ => rfl
  | cons f rest ih =>
    have h_lower (now : Nat) : Action.Tracks (Recounted k) p (· = p)
        (do lower (β := β) f rest; settle now rest) (do lower f rest; settle now rest) :=
      (tracks_recount_lower f rest).bind fun _ => ih now
    -- a fall that is not due yet is armed, and may be due after all once that is done
    refine .ite (h_lower now) (.get_bind ?_)
    rintro e _ rfl
    refine .ite (tracks_recount_modify fun _ => rfl) (.bind (tracks_recount_onBoard _) fun _ => ?_)
    refine .get_bind ?_
    rintro e _ rfl
    exact tracks_recount_elapsed_bind fun later => .ite (h_lower later) (.pure ())

theorem tracks_recount_fallDue :
    Action.Tracks (Recounted k) p (· = p) (fallDue (β := β)) fallDue := by
  refine .get_bind ?_
  rintro e _ rfl
  exact tracks_recount_elapsed_bind fun now => tracks_recount_settle now e.queue.events

/-! ### The interrupt -/

theorem tracks_recount_raise (servo : Nat) (c : Channel) :
    Action.Tracks (Recounted k) p (· = p) (raise (β := β) servo c) (raise servo c) := by
  refine .ite (.get_bind ?_) (.pure ())
  rintro e _ rfl
  -- both queues are the same, and so both have room or neither has
  simp only [recount]
  cases e.queue.push ⟨c.position, servo, c.pin⟩ with
  | ok queue =>
    exact .bind (tracks_recount_modify fun _ => rfl) fun _ => tracks_recount_onBoard _
  | error => exact .pure ()

/-- A period that begins is counted, whatever the count was. -/
theorem tracks_recount_beginPeriod :
    Action.Tracks (Recounted k) p (· = p) (beginPeriod (β := β)) beginPeriod := by
  refine .get_bind ?_
  rintro e _ rfl
  -- the falls and the table are dealt with before the count is raised
  refine .bind (tracks_recount_lowerAll e.queue.events) fun _ => ?_
  refine .bind (tracks_recount_modify fun _ => rfl) fun _ => .get_bind ?_
  rintro e _ rfl
  refine .bind (.forM fun x _ => tracks_recount_raise x.2 x.1) fun _ => ?_
  refine tracks_recount_modify fun e => ?_
  -- the count is raised on both sides, so the difference stays
  have h_periods : e.periods + k + 1 = e.periods + 1 + k := by
    rw [UInt32.add_assoc, UInt32.add_comm k 1, ← UInt32.add_assoc]
  simp only [recount, h_periods]
  rfl

theorem tracks_recount_turn :
    Action.Tracks (Recounted k) p (· = p) (turn (β := β)) turn := by
  refine .bind (tracks_recount_modify fun _ => rfl) fun _ => .get_bind ?_
  rintro e _ rfl
  exact .ite (.set_bind rfl tracks_recount_beginPeriod) (.pure ())

/-- **Interrupts.** An interrupt is served alike from every count. -/
theorem tracks_recount_interrupt :
    Action.Tracks (Recounted k) p (· = p) (interrupt (β := β)) interrupt := by
  -- both flags are the board's and do not depend on the count
  refine .bind (.modifyGet ?_) fun overflow => .bind (.modifyGet ?_) fun compare => .get_bind ?_
  · rintro e _ rfl
    exact ⟨rfl, rfl⟩
  · rintro e _ rfl
    exact ⟨rfl, rfl⟩
  rintro e _ rfl
  have h_falls (due : Bool) : Action.Tracks (Recounted k) p (· = p)
      (if due then fallDue (β := β) else pure ()) (if due then fallDue else pure ()) :=
    .ite tracks_recount_fallDue (.pure ())
  exact .ite (.ite (.bind tracks_recount_turn fun _ => h_falls _) (h_falls _)) (.pure ())

/-! ### Shutdowns -/

/-- **Shutdowns.** An engine is shut down alike from every count. -/
theorem tracks_recount_shutDown :
    Action.Tracks (Recounted k) p (· = p) (shutDown (β := β)) shutDown := by
  refine .bind ?_ fun _ => tracks_recount_modify fun _ => rfl
  refine .bind (tracks_recount_modify fun _ => rfl) fun _ => ?_
  refine .bind (tracks_recount_modify fun _ => rfl) fun _ => .get_bind ?_
  rintro e _ rfl
  refine .bind (.forM fun c _ => tracks_recount_onBoard _) fun _ => ?_
  exact tracks_recount_modify fun _ => rfl

/-! ### Commands -/

omit [Board β] in
theorem refreshMoving_recount (servo : Nat) (e : Engine β) (k : UInt32) :
    (e.recount k).refreshMoving servo = (e.refreshMoving servo).recount k := by
  unfold refreshMoving
  rw [show (e.recount k).channel? servo = e.channel? servo from rfl]
  split
  · rfl
  · rw [show (e.recount k).started = e.started from rfl]
    split <;> rfl

omit [Board β] in
/-- **Commands.** A command does the same from every count. -/
theorem endsIn_exec_recount {c : Command} {e e' : Engine β} (h : c.exec.EndsIn p e e')
    (k : UInt32) : c.exec.EndsIn p (e.recount k) (e'.recount k) := by
  have h_servo {servo : Nat} {f : Engine β → Engine β}
      (h_f : f (e.recount k) = (f e).recount k)
      (h : (do if (← (← get).servo? servo).isSome then modify f : Action (Engine β) Unit).EndsIn p
        e e') :
      (do if (← (← get).servo? servo).isSome then modify f : Action (Engine β) Unit).EndsIn p
        (e.recount k) (e'.recount k) := by
    -- the look-up does not see the count
    rw [endsIn_servo?_iff] at h ⊢
    rw [h, h_f, show (e.recount k).servo? servo = e.servo? servo from rfl]
    cases (e.servo? servo).run p with
    | ok channel? => exact apply_ite (recount k) _ _ _
    | error trap => rfl
  have h_target (servo ticks : Nat) := refreshMoving_recount servo
    { e with table := e.table.modify servo (·.aim (clampTicks ticks)) } k
  cases c with
  | targetTicks servo ticks => exact h_servo (h_target servo ticks) h
  | targetUs servo us => exact h_servo (h_target servo (usToTicks us)) h
  | speed servo limit => exact h_servo rfl h

end Engine

end ServoPulse
