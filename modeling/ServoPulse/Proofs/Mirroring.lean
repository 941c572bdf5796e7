import ServoPulse.Proofs.Endings

/-!
# Engines that mirror each other

An action **mirrors** another (`Action.Mirrors`) when, from states that correspond, it comes to the
same as the other: it returns the same or it traps in the same way, and the states correspond again.
Some traps of the first action may be of its own; after these nothing is said of the second one. The
action mirrored runs under one profile and the one that mirrors it under several, with one outcome
for all of them.

An engine sees no more of its board than the operations of a board do. So where those mirror each
other on two boards, what the engine does on the one board mirrors what it does on the other. The
engines face each other all the while (`Engine.Facing`): they differ in nothing but their boards,
and the pins of their channels are ready to be driven high, which no other pins have to be, since
only these rise (`FallsMirror.beginPeriod`).
-/

namespace ServoPulse

/-- What comes of `x` under `p` comes of `y` under each of the profiles in `Q`. Where `lost` holds,
a trap of `x` says nothing of `y`. -/
def Checked.Mirrors {α : Type} (lost : Prop) (p : Profile) (Q : Profile → Prop) (x y : Checked α) :
    Prop :=
  (∀ q, Q q → y.run q = x.run p) ∨ lost ∧ ∃ trap, x.run p = .error trap

theorem Checked.Mirrors.map {α β : Type} {lost : Prop} {p : Profile} {Q : Profile → Prop}
    {x y : Checked α} {f : α → β} (h : x.Mirrors lost p Q y) :
    (f <$> x).Mirrors lost p Q (f <$> y) := by
  rcases h with h_same | ⟨h_lost, trap, h_trap⟩
  · refine .inl fun q hq => ?_
    rw [run_map, run_map, h_same q hq]
  · refine .inr ⟨h_lost, trap, ?_⟩
    rw [run_map, h_trap]

namespace Action

variable {σ τ σ' τ' α β γ : Type} {p : Profile} {Q : Profile → Prop} {R : σ → τ → Prop}
  {R' : σ' → τ' → Prop} {X : σ → Prop} {X' : σ' → Prop}

/-- Beside an outcome on the one side: `y` comes from `t` to the same outcome under all profiles in
`Q`, and the states are in `R`. After a trap in a state of `X` nothing is said of `y`. -/
inductive Mirrored (R : σ → τ → Prop) (X : σ → Prop) (Q : Profile → Prop) (y : Action τ α) (t : τ) :
    EStateM.Result Trap σ α → Prop
  | ok {a : α} {s' : σ} {t' : τ} (h_run : ∀ q, Q q → y.run q t = .ok a t') (h_rel : R s' t') :
      Mirrored R X Q y t (.ok a s')
  | error {trap : Trap} {s' : σ} {t' : τ} (h_run : ∀ q, Q q → y.run q t = .error trap t')
      (h_rel : R s' t') : Mirrored R X Q y t (.error trap s')
  | lost {trap : Trap} {s' : σ} (h : X s') : Mirrored R X Q y t (.error trap s')

/-- From states with `R`, the action `y` comes to the same as `x` does under `p`, whether `x`
returns or traps, unless `x` traps in a state of `X`. -/
def Mirrors (R : σ → τ → Prop) (X : σ → Prop) (p : Profile) (Q : Profile → Prop) (x : Action σ α)
    (y : Action τ α) : Prop :=
  ∀ ⦃s t⦄, R s t → Mirrored R X Q y t (x.run p s)

/-- Another action that runs in the same way. -/
theorem Mirrored.of_run_eq {y z : Action τ α} {t u : τ} {r : EStateM.Result Trap σ α}
    (h : Mirrored R X Q y t r) (h_run : ∀ q, Q q → z.run q u = y.run q t) :
    Mirrored R X Q z u r := by
  cases h with
  | ok h_y h_rel => exact .ok (fun q hq => (h_run q hq).trans (h_y q hq)) h_rel
  | error h_y h_rel => exact .error (fun q hq => (h_run q hq).trans (h_y q hq)) h_rel
  | lost h => exact .lost h

theorem Mirrored.mono {S : σ → τ → Prop} {y : Action τ α} {t : τ} {r : EStateM.Result Trap σ α}
    (h : Mirrored R X Q y t r) (h_rel : ∀ s t, R s t → S s t) : Mirrored S X Q y t r := by
  cases h with
  | ok h_y h => exact .ok h_y (h_rel _ _ h)
  | error h_y h => exact .error h_y (h_rel _ _ h)
  | lost h => exact .lost h

/-- A checked value comes first. -/
theorem Mirrored.liftM_bind {x y : Checked β} {k : β → Action σ α} {l : β → Action τ α} {s : σ}
    {t : τ} (h_rel : R s t) (h : Checked.Mirrors (X s) p Q x y)
    (h_rest : ∀ b, Mirrored R X Q (l b) t ((k b).run p s)) :
    Mirrored R X Q (liftM y >>= l) t ((liftM x >>= k : Action σ α).run p s) := by
  rw [run_bind, run_liftM]
  -- the values are read alike, or the first board has lost itself to a trap
  rcases h with h_same | ⟨h_lost, trap, h_trap⟩
  · cases h_x : x.run p with
    | ok b =>
      refine (h_rest b).of_run_eq fun q hq => ?_
      rw [run_bind, run_liftM, h_same q hq, h_x]
    | error trap =>
      refine .error (fun q hq => ?_) h_rel
      rw [run_bind, run_liftM, h_same q hq, h_x]
  · rw [h_trap]
    exact .lost h_lost

namespace Mirrors

theorem pure (a : α) : Mirrors R X p Q (Pure.pure a) (Pure.pure a) :=
  fun _ _ h_rel => .ok (fun _ _ => rfl) h_rel

theorem modify {f : σ → σ} {g : τ → τ} (h : ∀ s t, R s t → R (f s) (g t)) :
    Mirrors R X p Q (modify f : Action σ PUnit) (modify g) :=
  fun s t h_rel => .ok (fun _ _ => rfl) (h s t h_rel)

theorem modifyGet {f : σ → α × σ} {g : τ → α × τ}
    (h : ∀ s t, R s t → (g t).1 = (f s).1 ∧ R (f s).2 (g t).2) :
    Mirrors R X p Q (modifyGet f : Action σ α) (modifyGet g) := by
  intro s t h_rel
  obtain ⟨h_value, h_state⟩ := h s t h_rel
  refine .ok (fun q _ => ?_) h_state
  rw [run_modifyGet, h_value]

/-- A trap in the first part ends both. -/
theorem bind {x : Action σ α} {y : Action τ α} {k : α → Action σ β} {l : α → Action τ β}
    (h : Mirrors R X p Q x y) (h_rest : ∀ a, Mirrors R X p Q (k a) (l a)) :
    Mirrors R X p Q (x >>= k) (y >>= l) := by
  -- the first part decides with which of the two outcomes the rest is met
  intro s t h_rel
  have h_first := h h_rel
  rw [run_bind]
  cases h_x : x.run p s with
  | ok a s' =>
    -- both went on from related states, and so does the rest
    rw [h_x] at h_first
    obtain ⟨h_run, h_rel'⟩ := h_first
    refine (h_rest a h_rel').of_run_eq fun q hq => ?_
    rw [run_bind, h_run q hq]
  | error trap s' =>
    rw [h_x] at h_first
    cases h_first with
    | error h_run h_rel' =>
      -- a trap of both ends both
      refine .error (fun q hq => ?_) h_rel'
      rw [run_bind, h_run q hq]
    | lost h => exact .lost h

/-- What follows may use that the states correspond. -/
theorem get_bind {k : σ → Action σ α} {l : τ → Action τ α}
    (h : ∀ s t, R s t → Mirrors R X p Q (k s) (l t)) : Mirrors R X p Q (get >>= k) (get >>= l) :=
  fun s t h_rel => (h s t h_rel h_rel).of_run_eq fun _ _ => rfl

theorem set_bind {k : PUnit → Action σ α} {l : PUnit → Action τ α} {s : σ} {t : τ}
    (h_set : R s t) (h : Mirrors R X p Q (k ⟨⟩) (l ⟨⟩)) :
    Mirrors R X p Q (set s >>= k) (set t >>= l) :=
  fun _ _ _ => (h h_set).of_run_eq fun _ _ => rfl

/-- A value computed from the state. -/
theorem get_liftM_bind {x : σ → Checked β} {y : τ → Checked β} {k : σ → β → Action σ α}
    {l : τ → β → Action τ α} (h : ∀ s t, R s t → Checked.Mirrors (X s) p Q (x s) (y t))
    (h_rest : ∀ s t, R s t → ∀ b, Mirrors R X p Q (k s b) (l t b)) :
    Mirrors R X p Q (do let s ← get; let b ← liftM (x s); k s b)
      (do let t ← get; let b ← liftM (y t); l t b) :=
  fun s t h_rel => (Mirrored.liftM_bind h_rel (h s t h_rel) fun b =>
    h_rest s t h_rel b h_rel).of_run_eq fun _ _ => rfl

/-- A value that comes out alike. -/
theorem liftM_bind {x y : Checked β} {k : β → Action σ α} {l : β → Action τ α}
    (h : ∀ q, Q q → y.run q = x.run p) (h_rest : ∀ b, Mirrors R X p Q (k b) (l b)) :
    Mirrors R X p Q (liftM x >>= k) (liftM y >>= l) :=
  fun _ _ h_rel => Mirrored.liftM_bind h_rel (.inl h) fun b => h_rest b h_rel

theorem ite {c : Prop} [Decidable c] {x x' : Action σ α} {y y' : Action τ α}
    (h : Mirrors R X p Q x y) (h' : Mirrors R X p Q x' y') :
    Mirrors R X p Q (if c then x else x') (if c then y else y') := by
  split
  · exact h
  · exact h'

theorem forM {k : γ → Action σ PUnit} {l : γ → Action τ PUnit} {cs : List γ}
    (h : ∀ c ∈ cs, Mirrors R X p Q (k c) (l c)) : Mirrors R X p Q (cs.forM k) (cs.forM l) := by
  induction cs with
  | nil => exact .pure PUnit.unit
  | cons c cs ih =>
    exact (h c List.mem_cons_self).bind fun _ => ih fun d hd => h d (List.mem_cons_of_mem c hd)

theorem repeatWhile {x : Action σ Bool} {y : Action τ Bool} (h : Mirrors R X p Q x y) :
    ∀ fuel, Mirrors R X p Q (repeatWhile x fuel) (repeatWhile y fuel)
  | 0 => .pure PUnit.unit
  | fuel + 1 => h.bind fun _ => .ite (repeatWhile h fuel) (.pure _)

/-- An action on itself, under one profile. -/
theorem refl (x : Action σ α) : Mirrors Eq X p (· = p) x x := by
  rintro s _ rfl
  -- an action mirrors itself in the same profile: both runs are one run
  cases h_run : x.run p s with
  | ok a s' =>
    refine .ok (fun q hq => ?_) rfl
    rw [hq, h_run]
  | error trap s' =>
    refine .error (fun q hq => ?_) rfl
    rw [hq, h_run]

/-- Actions on parts that correspond. -/
theorem zoom {part : σ → σ'} {put : σ' → σ → σ} {part' : τ → τ'} {put' : τ' → τ → τ}
    {x : Action σ' α} {y : Action τ' α} (h : Mirrors R' X' p Q x y)
    (h_part : ∀ s t, R s t → R' (part s) (part' t))
    (h_put : ∀ s t u v, R s t → x.EndsIn p (part s) u → R' u v → R (put u s) (put' v t))
    (h_lost : ∀ s u, X' u → X (put u s)) :
    Mirrors R X p Q (Action.zoom part put x) (Action.zoom part' put' y) := by
  intro s t h_rel
  have h_run := h (h_part s t h_rel)
  rw [run_zoom]
  cases h_x : x.run p (part s) with
  | ok a u =>
    -- the parts end related, and each is put back into its own whole
    rw [h_x] at h_run
    obtain ⟨h_y, h_uv⟩ := h_run
    refine .ok (fun q hq => ?_) (h_put s t u _ h_rel (.inl ⟨a, h_x⟩) h_uv)
    rw [run_zoom, h_y q hq]
  | error trap u =>
    rw [h_x] at h_run
    cases h_run with
    | error h_y h_uv =>
      refine .error (fun q hq => ?_) (h_put s t u _ h_rel (.inr ⟨trap, h_x⟩) h_uv)
      rw [run_zoom, h_y q hq]
    | lost h_u => exact .lost (h_lost s u h_u)

end Mirrors

end Action

/-! ### Boards that mirror each other -/

/-- On boards in `R`, what the falls ask of the second board mirrors what they ask of the first
one. -/
structure FallsMirror {β γ : Type} [Board β] [Board γ] (R : β → γ → Prop) (X : β → Prop)
    (p : Profile) (Q : Profile → Prop) : Prop where
  counter : ∀ {b c}, R b c → Checked.Mirrors (X b) p Q (Board.counter b) (Board.counter c)
  armCompare : ∀ value, Action.Mirrors R X p Q (Board.armCompare value) (Board.armCompare value)
  disarmCompare : ∀ {b c}, R b c → R (Board.disarmCompare b) (Board.disarmCompare c)
  setLow : ∀ pin, Action.Mirrors R X p Q (Board.setLow pin) (Board.setLow pin)

namespace Engine

variable {α β γ : Type} {R : β → γ → Prop} {X : β → Prop} {ready : Nat → Prop} {p : Profile}
  {Q : Profile → Prop}

/-- The engine with another board in place of its own. -/
def onto (board : γ) (e : Engine β) : Engine γ where
  board
  config := e.config
  table := e.table
  started := e.started
  moving := e.moving
  wrap := e.wrap
  phase := e.phase
  queue := e.queue
  periods := e.periods

/-- Engines that differ in nothing but their boards, which are in `R`. -/
def OnBoards (R : β → γ → Prop) (e : Engine β) (t : Engine γ) : Prop :=
  ∃ c, R e.board c ∧ t = e.onto c

/-- Engines that differ in nothing but their boards, which are in `R`. The pins of the channels are
ready. -/
def Facing (R : β → γ → Prop) (ready : Nat → Prop) (e : Engine β) (t : Engine γ) : Prop :=
  OnBoards R e t ∧ ∀ c ∈ e.table.active, ready c.pin

theorem mirrors_onBoard {x : Action β α} {y : Action γ α} (h : Action.Mirrors R X p Q x y) :
    Action.Mirrors (Facing R ready) (fun e => X e.board) p Q (onBoard x) (onBoard y) := by
  refine h.zoom ?_ ?_ fun _ _ h_lost => h_lost
  · rintro e t ⟨⟨c, h_rel, rfl⟩, -⟩
    exact h_rel
  · rintro e t b c ⟨⟨d, -, rfl⟩, h_ready⟩ - h_rel
    exact ⟨⟨c, h_rel, rfl⟩, h_ready⟩

theorem mirrors_changeBoard {f : β → β} {g : γ → γ} (h : ∀ {b c}, R b c → R (f b) (g c)) :
    Action.Mirrors (Facing R ready) (fun e => X e.board) p Q (changeBoard f) (changeBoard g) := by
  refine .modify ?_
  rintro e t ⟨⟨c, h_rel, rfl⟩, h_ready⟩
  exact ⟨⟨g c, h h_rel, rfl⟩, h_ready⟩

/-- An engine with the same board and the same pins. -/
theorem Facing.of_pins {e e' : Engine β} {t : Engine γ} (h : Facing R ready e t)
    (h_board : e'.board = e.board)
    (h_pins : e'.table.active.map Channel.pin = e.table.active.map Channel.pin) :
    Facing R ready e' (e'.onto t.board) := by
  -- the pins of the table are the same, so each of them stays ready
  obtain ⟨⟨c, h_rel, rfl⟩, h_ready⟩ := h
  refine ⟨⟨c, h_board.symm ▸ h_rel, rfl⟩, fun channel h_channel => ?_⟩
  have h_pin := List.mem_map_of_mem (f := Channel.pin) h_channel
  rw [h_pins] at h_pin
  obtain ⟨d, hd, h_eq⟩ := List.mem_map.1 h_pin
  exact h_eq ▸ h_ready d hd

/-- A change that leaves the board alone, and the pins of the channels. -/
theorem mirrors_modify {f : Engine β → Engine β} {g : Engine γ → Engine γ}
    (h_board : ∀ e, (f e).board = e.board)
    (h_pins : ∀ e, (f e).table.active.map Channel.pin = e.table.active.map Channel.pin)
    (h : ∀ e c, g (e.onto c) = (f e).onto c) :
    Action.Mirrors (Facing R ready) (fun e => X e.board) p Q (modify f : Action (Engine β) PUnit)
      (modify g) := by
  refine .modify fun e t h_facing => ?_
  have h_next := h_facing.of_pins (h_board e) (h_pins e)
  -- the change is the same on both engines, whatever their boards are
  obtain ⟨⟨c, -, rfl⟩, -⟩ := h_facing
  rw [h]
  exact h_next

/-! ### Commands -/

theorem refreshMoving_onto (board : γ) (servo : Nat) (e : Engine β) :
    (e.onto board).refreshMoving servo = (e.refreshMoving servo).onto board := by
  unfold refreshMoving
  rw [show (e.onto board).channel? servo = e.channel? servo from rfl]
  split
  · rfl
  · rw [show (e.onto board).started = e.started from rfl]
    split <;> rfl

/-- A command does the same on every board, and touches none. -/
theorem run_exec_onto (k : Command) (e : Engine β) (board : γ) :
    k.exec.run p (e.onto board) = match k.exec.run p e with
      | .ok a e' => .ok a (e'.onto board)
      | .error trap e' => .error trap (e'.onto board) := by
  -- each command looks its channel up and then changes the engine, if there is one
  have h_servo {servo : Nat} {f : Engine β → Engine β} {g : Engine γ → Engine γ}
      (h_fg : g (e.onto board) = (f e).onto board) :
      Action.run (do if (← (← get).servo? servo).isSome then modify g : Action (Engine γ) Unit) p
          (e.onto board) =
        match Action.run (do if (← (← get).servo? servo).isSome then modify f :
          Action (Engine β) Unit) p e with
        | .ok a e' => .ok a (e'.onto board)
        | .error trap e' => .error trap (e'.onto board) := by
    -- the number is looked up in the table, which both engines share
    rw [Action.run_get_bind, Action.run_get_bind, Action.run_bind, Action.run_bind,
      Action.run_liftM, Action.run_liftM,
      show (e.onto board).servo? servo = e.servo? servo from rfl]
    cases (e.servo? servo).run p with
    | ok channel? =>
      cases channel? with
      | some channel => exact congrArg (EStateM.Result.ok ()) h_fg
      | none => rfl
    | error trap => rfl
  -- the target is written the same way, and the flag after it
  have h_target (servo ticks : Nat) := refreshMoving_onto board servo
    { e with table := e.table.modify servo (·.aim (clampTicks ticks)) }
  cases k with
  | targetTicks servo ticks => exact h_servo (h_target servo ticks)
  | targetUs servo us => exact h_servo (h_target servo (usToTicks us))
  | speed servo limit => exact h_servo rfl

theorem endsIn_exec_onto {k : Command} {e e' : Engine β} (h : k.exec.EndsIn p e e') (board : γ) :
    k.exec.EndsIn p (e.onto board) (e'.onto board) := by
  unfold Action.EndsIn
  rw [run_exec_onto]
  -- the command ends on the other board as it did on this one
  rcases h with ⟨a, h_run⟩ | ⟨trap, h_run⟩
  · rw [h_run]
    exact .inl ⟨a, rfl⟩
  · rw [h_run]
    exact .inr ⟨trap, rfl⟩

/-- **Commands.** A command does not ask the board anything, so on engines that differ in nothing
but their boards it comes to the same answer or trap. -/
theorem mirrors_exec (k : Command) :
    Action.Mirrors (Facing R ready) (fun e => X e.board) p (· = p) k.exec k.exec := by
  -- a command never touches the board, so the other engine is the same up to it
  intro e t h_facing
  have h_next {e' : Engine β} (h_end : k.exec.EndsIn p e e') :
      Facing R ready e' (e'.onto t.board) := by
    rcases endsIn_exec h_end with rfl | ⟨moving, rfl⟩
    · exact h_facing.of_pins rfl rfl
    · exact h_facing.of_pins rfl (ChannelTable.map_pin_modify k.write_pin)
  have h_other := run_exec_onto (p := p) k e t.board
  obtain ⟨⟨c, -, rfl⟩, -⟩ := h_facing
  cases h_run : k.exec.run p e with
  | ok a e' =>
    rw [h_run] at h_other
    exact .ok (fun q hq => hq ▸ h_other) (h_next (.inl ⟨a, h_run⟩))
  | error trap e' =>
    rw [h_run] at h_other
    exact .error (fun q hq => hq ▸ h_other) (h_next (.inr ⟨trap, h_run⟩))

end Engine

namespace FallsMirror

open Engine

variable {β γ : Type} [Board β] [Board γ] {R : β → γ → Prop} {X : β → Prop} {ready : Nat → Prop}
  {p : Profile} {Q : Profile → Prop} (h : FallsMirror R X p Q)

include h

/-! ### Falls -/

theorem elapsed {e : Engine β} {t : Engine γ} (h_rel : Facing R ready e t) :
    Checked.Mirrors (X e.board) p Q e.elapsed t.elapsed := by
  obtain ⟨⟨c, h_rel, rfl⟩, -⟩ := h_rel
  exact (h.counter h_rel).map

theorem lower (f : Fall) (rest : List Fall) :
    Action.Mirrors (Facing R ready) (fun e => X e.board) p Q (Engine.lower f rest)
      (Engine.lower f rest) :=
  .bind (mirrors_modify (fun _ => rfl) (fun _ => rfl) fun _ _ => rfl) fun _ =>
    mirrors_onBoard (h.setLow f.pin)

theorem lowerAll (events : List Fall) :
    Action.Mirrors (Facing R ready) (fun e => X e.board) p Q (Engine.lowerAll events)
      (Engine.lowerAll events) := by
  induction events with
  | nil => exact .pure ()
  | cons f rest ih => exact (h.lower f rest).bind fun _ => ih

/-- Both engines lower the same pins at the same times, and arm for the same values. -/
theorem settle (now : Nat) (events : List Fall) :
    Action.Mirrors (Facing R ready) (fun e => X e.board) p Q (Engine.settle now events)
      (Engine.settle now events) := by
  -- induction on the queue, with the same reading of the clock on both boards
  induction events generalizing now with
  | nil =>
    exact .bind (mirrors_changeBoard h.disarmCompare) fun _ =>
      mirrors_modify (fun _ => rfl) (fun _ => rfl) fun _ _ => rfl
  | cons f rest ih =>
    unfold Engine.settle
    -- lowering is mirrored; the arm and the second reading are too
    refine .ite (.bind (h.lower f rest) fun _ => ih now) (.get_bind ?_)
    rintro e t ⟨⟨c, -, rfl⟩, -⟩
    refine .ite (mirrors_changeBoard h.disarmCompare) ?_
    refine .bind (mirrors_onBoard (h.armCompare _)) fun _ => ?_
    refine .get_liftM_bind (fun _ _ h_rel => h.elapsed h_rel) fun _ _ _ later => ?_
    exact .ite (.bind (h.lower f rest) fun _ => ih later) (.pure ())

theorem fallDue :
    Action.Mirrors (Facing R ready) (fun e => X e.board) p Q Engine.fallDue Engine.fallDue := by
  refine .get_liftM_bind (fun _ _ h_rel => h.elapsed h_rel) ?_
  rintro e t ⟨⟨c, -, rfl⟩, -⟩ now
  exact h.settle now e.queue.events

/-! ### The start of a period -/

omit h in
theorem raise {servo : Nat} {c : Channel}
    (h_high : Action.Mirrors R X p Q (Board.setHigh c.pin) (Board.setHigh c.pin)) :
    Action.Mirrors (Facing R ready) (fun e => X e.board) p Q (Engine.raise servo c)
      (Engine.raise servo c) := by
  unfold Engine.raise
  refine .ite (.get_bind ?_) (.pure ())
  rintro e t ⟨⟨d, -, rfl⟩, -⟩
  -- both queues are the same, and so both have room or neither has
  simp only [onto]
  cases e.queue.push ⟨c.position, servo, c.pin⟩ with
  | ok queue =>
    refine .bind (mirrors_modify (fun _ => rfl) (fun _ => rfl) fun _ _ => rfl) fun _ => ?_
    exact mirrors_onBoard h_high
  | error => exact .pure ()

variable (h_high : ∀ pin, ready pin →
  Action.Mirrors R X p Q (Board.setHigh pin) (Board.setHigh pin))

include h_high

/-- A period raises the pins of the channels alone, so it is enough that these are ready. -/
theorem beginPeriod :
    Action.Mirrors (Facing R ready) (fun e => X e.board) p Q Engine.beginPeriod
      Engine.beginPeriod := by
  refine .get_bind ?_
  -- the old falls are lowered first, and the table is stepped by both alike
  rintro e t ⟨⟨c, -, rfl⟩, -⟩
  refine .bind (h.lowerAll e.queue.events) fun _ => ?_
  refine .bind (mirrors_modify (fun _ => rfl) (fun e => e.table.map_pin_step) fun _ _ => rfl)
    fun _ => .get_bind ?_
  rintro e t ⟨⟨c, -, rfl⟩, h_ready⟩
  -- of what is raised here the pins were made ready when the channels were listed
  refine .bind (.forM fun x hx => raise (h_high _ ?_)) fun _ =>
    mirrors_modify (fun _ => rfl) (fun _ => rfl) fun _ _ => rfl
  exact h_ready x.1 (List.mem_of_getElem? (List.mk_mem_zipIdx_iff_getElem?.1 hx))

theorem turn :
    Action.Mirrors (Facing R ready) (fun e => X e.board) p Q Engine.turn Engine.turn := by
  refine .bind (mirrors_modify (fun _ => rfl) (fun _ => rfl) fun _ _ => rfl) fun _ => .get_bind ?_
  rintro e t ⟨⟨c, h_rel, rfl⟩, h_ready⟩
  exact .ite (.set_bind ⟨⟨c, h_rel, rfl⟩, h_ready⟩ (h.beginPeriod h_high)) (.pure ())

/-- **Interrupts.** On boards that take their flags alike and mirror what falls ask of them, an
interrupt of the second engine comes to what one of the first engine comes to. -/
theorem interrupt
    (h_overflow : ∀ {b c}, R b c → (Board.takeOverflow c).1 = (Board.takeOverflow b).1 ∧
      R (Board.takeOverflow b).2 (Board.takeOverflow c).2)
    (h_compare : ∀ {b c}, R b c → (Board.takeCompare c).1 = (Board.takeCompare b).1 ∧
      R (Board.takeCompare b).2 (Board.takeCompare c).2) :
    Action.Mirrors (Facing R ready) (fun e => X e.board) p Q Engine.interrupt Engine.interrupt := by
  -- the flags are read and cleared by both boards alike, which is what the hypotheses say
  refine .bind (.modifyGet ?_) fun overflow => .bind (.modifyGet ?_) fun compare => .get_bind ?_
  · rintro e t ⟨⟨c, h_rel, rfl⟩, h_ready⟩
    obtain ⟨h_flag, h_board⟩ := h_overflow h_rel
    exact ⟨h_flag, ⟨_, h_board, rfl⟩, h_ready⟩
  · rintro e t ⟨⟨c, h_rel, rfl⟩, h_ready⟩
    obtain ⟨h_flag, h_board⟩ := h_compare h_rel
    exact ⟨h_flag, ⟨_, h_board, rfl⟩, h_ready⟩
  -- halted engines do nothing, on both boards
  rintro e t ⟨⟨c, -, rfl⟩, -⟩
  have h_falls : Action.Mirrors (Facing R ready) (fun e => X e.board) p Q
      (if overflow || compare then Engine.fallDue else pure ())
      (if overflow || compare then Engine.fallDue else pure ()) := .ite h.fallDue (.pure ())
  -- the falls come last, whether or not a turn was counted before
  exact .ite (.ite (.bind (h.turn h_high) fun _ => h_falls) h_falls) (.pure ())

end FallsMirror

namespace Engine

/-! ### Starts and stops of the timer -/

section Stop

variable {β γ : Type} [Board β] [Board γ] {R : β → γ → Prop} {X : β → Prop} {ready : Nat → Prop}
  {S : Engine β → Engine γ → Prop} {Y : Engine β → Prop} {p : Profile} {Q : Profile → Prop}

theorem mirrors_launch
    (h : Action.Mirrors R X p Q (Board.startTimer : Action β Unit) Board.startTimer) :
    Action.Mirrors (Facing R ready) (fun e => X e.board) p Q launch launch := by
  refine .bind (.bind (mirrors_modify (fun _ => rfl) (fun _ => rfl) fun _ _ => rfl) fun _ => ?_)
    fun _ => ?_
  · exact mirrors_onBoard h
  · exact mirrors_modify (fun _ => rfl) (fun _ => rfl) fun _ _ => rfl

theorem mirrors_halt (h_timer : ∀ {b c}, R b c → R (Board.stopTimer b) (Board.stopTimer c))
    (h_low : ∀ pin, Action.Mirrors R X p Q (Board.setLow pin) (Board.setLow pin)) :
    Action.Mirrors (Facing R ready) (fun e => X e.board) p Q halt halt := by
  refine .bind (mirrors_changeBoard h_timer) fun _ => ?_
  refine .bind (mirrors_modify (fun _ => rfl) (fun _ => rfl) fun _ _ => rfl) fun _ => .get_bind ?_
  rintro e t ⟨⟨c, -, rfl⟩, -⟩
  refine .bind (.forM fun c _ => mirrors_onBoard (h_low c.pin)) fun _ => ?_
  exact mirrors_modify (fun _ => rfl) (fun _ => rfl) fun _ _ => rfl

theorem mirrors_shutDown (h_timer : ∀ {b c}, R b c → R (Board.stopTimer b) (Board.stopTimer c))
    (h_low : ∀ pin, Action.Mirrors R X p Q (Board.setLow pin) (Board.setLow pin)) :
    Action.Mirrors (Facing R ready) (fun e => X e.board) p Q shutDown shutDown :=
  .bind (mirrors_halt h_timer h_low) fun _ =>
    mirrors_modify (fun _ => rfl) (fun _ => rfl) fun _ _ => rfl

variable {wait : Nat → Action (Engine β) Unit} {wait' : Nat → Action (Engine γ) Unit}
  (h_down : Action.Mirrors S Y p Q shutDown shutDown)
  (h_wait : ∀ k, Action.Mirrors S Y p Q (wait k) (wait' k))

include h_down h_wait

theorem mirrors_awaitFalls (h_flight : ∀ {e t}, S e t → t.pulseInFlight = e.pulseInFlight)
    (poll timeout fuel polls waited : Nat) :
    Action.Mirrors S Y p Q (awaitFalls wait poll timeout fuel polls waited)
      (awaitFalls wait' poll timeout fuel polls waited) := by
  -- induction on the fuel, with the two waits made side by side
  induction fuel generalizing polls waited with
  | zero => exact .bind h_down fun _ => .pure _
  | succ fuel ih =>
    refine .get_bind fun e t h => ?_
    -- both engines see the same pulse in flight, so both go on or both stop
    rw [h_flight h]
    exact .ite (.bind (h_wait polls) fun _ => ih _ _) (.bind h_down fun _ => .pure _)

/-- Both engines stop alike if they wait and shut down alike. -/
theorem mirrors_stop (h_same : ∀ {e t}, S e t →
      t.started = e.started ∧ t.config = e.config ∧ t.pulseInFlight = e.pulseInFlight) :
    Action.Mirrors S Y p Q (stop wait) (stop wait') := by
  refine .get_bind fun e t h => ?_
  obtain ⟨h_started, h_config, -⟩ := h_same h
  rw [h_started, h_config]
  exact .ite (mirrors_awaitFalls h_down h_wait (fun h => (h_same h).2.2) _ _ _ _ _) (.pure _)

end Stop

end Engine

end ServoPulse
