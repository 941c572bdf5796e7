import ServoPulse.Proofs.Mirroring

/-!
# Engines that track each other

An action **tracks** another (`Action.Tracks`) when, from states that correspond, it returns
whenever the other returns, with the same result and in a state that corresponds again. The action
tracked runs under one profile and the one that tracks it under several, with one outcome for all
of them. This is to mirror it where traps do not count (`Action.tracks_iff_mirrors`).

An engine sees no more of its board than the operations of a board do. So where those track
each other on two boards (`BoardTracks`), each operation of the engine on the one board tracks
the same operation on the other. Not every operation needs all of them: a call starts and stops
the timer and touches the pins (`CallsTrack.start`, `CallsTrack.stop`), the falls also need the
counter and the compare channel (`FallsTrack.fallDue`), a period raises no pins but those of
its channels (`FallsTrack.turn`), and only the interrupt takes the flags
(`BoardTracks.interrupt`).
-/

namespace ServoPulse

/-- Under each of the profiles in `Q`, a value comes out that comes out of `x` under `p`. -/
def Checked.Tracks {α : Type} (p : Profile) (Q : Profile → Prop) (x y : Checked α) : Prop :=
  ∀ a, x.run p = .ok a → ∀ q, Q q → y.run q = .ok a

theorem Checked.Tracks.mirrors {α : Type} {p : Profile} {Q : Profile → Prop} {x y : Checked α}
    (h : x.Tracks p Q y) : x.Mirrors True p Q y := by
  cases h_run : x.run p with
  | ok a => exact .inl fun q hq => (h a h_run q hq).trans h_run.symm
  | error trap => exact .inr ⟨trivial, trap, h_run⟩

namespace Action

variable {σ τ σ' τ' α β γ : Type} {p : Profile} {Q : Profile → Prop}
  {R : σ → τ → Prop} {R' : σ' → τ' → Prop}

/-- From states with `R`, the action `y` follows each run of `x` under `p` that returns: it
returns the same under all profiles in `Q`, in one state, and the states are in `R` again. -/
def Tracks (R : σ → τ → Prop) (p : Profile) (Q : Profile → Prop) (x : Action σ α)
    (y : Action τ α) : Prop :=
  ∀ ⦃s t⦄, R s t → ∀ ⦃a s'⦄, x.run p s = .ok a s' →
    ∃ t', (∀ q, Q q → y.run q t = .ok a t') ∧ R s' t'

/-- To track is to mirror where no trap counts. -/
theorem tracks_iff_mirrors {x : Action σ α} {y : Action τ α} :
    Tracks R p Q x y ↔ Mirrors R (fun _ => True) p Q x y := by
  constructor
  · -- a trap of the first action is nothing that the second one need follow
    intro h s t h_rel
    cases h_run : x.run p s with
    | ok a s' =>
      obtain ⟨t', h_y, h_rel'⟩ := h h_rel h_run
      exact .ok h_y h_rel'
    | error trap s' => exact .lost trivial
  · intro h s t h_rel a s' h_run
    have h_mirrored := h h_rel
    rw [h_run] at h_mirrored
    obtain ⟨h_y, h_rel'⟩ := h_mirrored
    exact ⟨_, h_y, h_rel'⟩

/-! ### Programs that track each other -/

namespace Tracks

theorem mirrors {x : Action σ α} {y : Action τ α} (h : Tracks R p Q x y) :
    Mirrors R (fun _ => True) p Q x y := tracks_iff_mirrors.1 h

theorem pure (a : α) : Tracks R p Q (Pure.pure a) (Pure.pure a) :=
  tracks_iff_mirrors.2 (.pure a)

theorem modify {f : σ → σ} {g : τ → τ} (h : ∀ s t, R s t → R (f s) (g t)) :
    Tracks R p Q (modify f : Action σ PUnit) (modify g) :=
  tracks_iff_mirrors.2 (.modify h)

theorem modifyGet {f : σ → α × σ} {g : τ → α × τ}
    (h : ∀ s t, R s t → (g t).1 = (f s).1 ∧ R (f s).2 (g t).2) :
    Tracks R p Q (modifyGet f : Action σ α) (modifyGet g) :=
  tracks_iff_mirrors.2 (.modifyGet h)

theorem bind {x : Action σ α} {y : Action τ α} {k : α → Action σ β} {l : α → Action τ β}
    (h : Tracks R p Q x y) (h_rest : ∀ a, Tracks R p Q (k a) (l a)) :
    Tracks R p Q (x >>= k) (y >>= l) :=
  tracks_iff_mirrors.2 (h.mirrors.bind fun a => (h_rest a).mirrors)

/-- What follows may use that the value came out. -/
theorem liftM_bind {x y : Checked β} {k : β → Action σ α} {l : β → Action τ α}
    (h : x.Tracks p Q y) (h_rest : ∀ b, x.run p = .ok b → Tracks R p Q (k b) (l b)) :
    Tracks R p Q (liftM x >>= k) (liftM y >>= l) := by
  intro s t h_rel a s' h_run
  obtain ⟨b, h_b, h_run⟩ := run_liftM_bind_eq_ok_iff.1 h_run
  obtain ⟨t', h_last, h_rel'⟩ := h_rest b h_b h_rel h_run
  exact ⟨t', fun q hq => run_liftM_bind_eq_ok_iff.2 ⟨b, h b h_b q hq, h_last q hq⟩, h_rel'⟩

/-- What follows may use that the states correspond. -/
theorem get_bind {k : σ → Action σ α} {l : τ → Action τ α}
    (h : ∀ s t, R s t → Tracks R p Q (k s) (l t)) : Tracks R p Q (get >>= k) (get >>= l) :=
  tracks_iff_mirrors.2 (.get_bind fun s t h_rel => (h s t h_rel).mirrors)

theorem set_bind {k : PUnit → Action σ α} {l : PUnit → Action τ α} {s : σ} {t : τ}
    (h_set : R s t) (h : Tracks R p Q (k ⟨⟩) (l ⟨⟩)) :
    Tracks R p Q (set s >>= k) (set t >>= l) :=
  tracks_iff_mirrors.2 (.set_bind h_set h.mirrors)

theorem ite {c : Prop} [Decidable c] {x x' : Action σ α} {y y' : Action τ α}
    (h : Tracks R p Q x y) (h' : Tracks R p Q x' y') :
    Tracks R p Q (if c then x else x') (if c then y else y') :=
  tracks_iff_mirrors.2 (h.mirrors.ite h'.mirrors)

theorem forM {k : γ → Action σ PUnit} {l : γ → Action τ PUnit} {cs : List γ}
    (h : ∀ c ∈ cs, Tracks R p Q (k c) (l c)) : Tracks R p Q (cs.forM k) (cs.forM l) :=
  tracks_iff_mirrors.2 (.forM fun c hc => (h c hc).mirrors)

theorem repeatWhile {x : Action σ Bool} {y : Action τ Bool} (h : Tracks R p Q x y) (fuel : Nat) :
    Tracks R p Q (repeatWhile x fuel) (repeatWhile y fuel) :=
  tracks_iff_mirrors.2 (h.mirrors.repeatWhile fuel)

/-- What every run that is tracked preserves may be known of its states. -/
theorem keeping {J : σ → Prop} {x : Action σ α} {y : Action τ α} (h : Tracks R p Q x y)
    (h_keeps : ∀ ⦃s a s'⦄, J s → x.run p s = .ok a s' → J s') :
    Tracks (fun s t => R s t ∧ J s) p Q x y := by
  intro s t h_rel a s' h_run
  obtain ⟨t', h_all, h_rel'⟩ := h h_rel.1 h_run
  exact ⟨t', h_all, h_rel', h_keeps h_rel.2 h_run⟩

theorem of_keeping {J : σ → Prop} {x : Action σ α} {y : Action τ α} (hJ : ∀ s, J s)
    (h : Tracks (fun s t => R s t ∧ J s) p Q x y) : Tracks R p Q x y := by
  intro s t h_rel a s' h_run
  obtain ⟨t', h_all, h_rel'⟩ := h ⟨h_rel, hJ s⟩ h_run
  exact ⟨t', h_all, h_rel'.1⟩

/-- Actions on parts that correspond. -/
theorem zoom {part : σ → σ'} {put : σ' → σ → σ} {part' : τ → τ'} {put' : τ' → τ → τ}
    {x : Action σ' α} {y : Action τ' α} (h : Tracks R' p Q x y)
    (h_part : ∀ s t, R s t → R' (part s) (part' t))
    (h_put : ∀ s t u v, R s t → R' u v → R (put u s) (put' v t)) :
    Tracks R p Q (Action.zoom part put x) (Action.zoom part' put' y) :=
  tracks_iff_mirrors.2 (h.mirrors.zoom h_part (fun s t u v h_rel _ => h_put s t u v h_rel)
    fun _ _ h => h)

end Tracks

end Action

/-! ### Boards that track each other -/

/-- On boards in `R`, what starts and stops ask of the second board tracks what they ask of the
first one. A pin is made an output only where it is low. -/
structure CallsTrack {β γ : Type} [Board β] [Board γ] (R : β → γ → Prop) (p : Profile)
    (Q : Profile → Prop) : Prop where
  startTimer : Action.Tracks R p Q (Board.startTimer : Action β Unit) Board.startTimer
  stopTimer : ∀ {b c}, R b c → R (Board.stopTimer b) (Board.stopTimer c)
  eligible : ∀ {b c}, R b c → Board.eligible c = Board.eligible b
  configureOutput : ∀ {b c}, R b c → ∀ pin, Board.isHigh b pin = false →
    R (Board.configureOutput pin b) (Board.configureOutput pin c)
  setLow : ∀ pin, Action.Tracks R p Q (Board.setLow pin) (Board.setLow pin)
  isHigh : ∀ {b c}, R b c → ∀ pin, Board.isHigh c pin = Board.isHigh b pin

/-- On boards in `R`, what the falls ask of the second board tracks what they ask of the first
one. -/
structure FallsTrack {β γ : Type} [Board β] [Board γ] (R : β → γ → Prop) (p : Profile)
    (Q : Profile → Prop) : Prop where
  counter : ∀ {b c}, R b c → Checked.Tracks p Q (Board.counter b) (Board.counter c)
  armCompare : ∀ value, Action.Tracks R p Q (Board.armCompare value) (Board.armCompare value)
  disarmCompare : ∀ {b c}, R b c → R (Board.disarmCompare b) (Board.disarmCompare c)
  setLow : ∀ pin, Action.Tracks R p Q (Board.setLow pin) (Board.setLow pin)

/-- On boards in `R`, the operations of the second board track those of the first. -/
structure BoardTracks {β γ : Type} [Board β] [Board γ] (R : β → γ → Prop) (p : Profile)
    (Q : Profile → Prop) : Prop extends CallsTrack R p Q, FallsTrack R p Q where
  setHigh : ∀ pin, Action.Tracks R p Q (Board.setHigh pin) (Board.setHigh pin)
  takeOverflow : ∀ {b c}, R b c → (Board.takeOverflow c).1 = (Board.takeOverflow b).1 ∧
    R (Board.takeOverflow b).2 (Board.takeOverflow c).2
  takeCompare : ∀ {b c}, R b c → (Board.takeCompare c).1 = (Board.takeCompare b).1 ∧
    R (Board.takeCompare b).2 (Board.takeCompare c).2

namespace Engine

variable {α β γ : Type} {R : β → γ → Prop} {p : Profile} {Q : Profile → Prop}

theorem tracks_onBoard {x : Action β α} {y : Action γ α} (h : Action.Tracks R p Q x y) :
    Action.Tracks (OnBoards R) p Q (onBoard x) (onBoard y) := by
  refine h.zoom ?_ ?_
  · rintro e t ⟨c, h_rel, rfl⟩
    exact h_rel
  · rintro e t b c ⟨d, -, rfl⟩ h_rel
    exact ⟨c, h_rel, rfl⟩

/-- A change that leaves the board alone. -/
theorem tracks_modify {f : Engine β → Engine β} {g : Engine γ → Engine γ}
    (h_board : ∀ e, (f e).board = e.board) (h : ∀ e c, g (e.onto c) = (f e).onto c) :
    Action.Tracks (OnBoards R) p Q (modify f : Action (Engine β) PUnit) (modify g) := by
  refine .modify ?_
  rintro e t ⟨c, h_rel, rfl⟩
  exact ⟨c, (h_board e).symm ▸ h_rel, h e c⟩

/-- Where no pin has to be ready, the boards are all that matters. -/
theorem tracks_of_facing {x : Action (Engine β) α} {y : Action (Engine γ) α}
    (h : Action.Mirrors (Facing R fun _ => True) (fun _ => True) p Q x y) :
    Action.Tracks (OnBoards R) p Q x y :=
  .of_keeping (fun _ _ _ => trivial) (Action.tracks_iff_mirrors.2 h)

/-! ### Shutdowns and stops -/

section Stop

variable {β γ : Type} [Board β] [Board γ] {R : β → γ → Prop} {S : Engine β → Engine γ → Prop}
  {p : Profile} {Q : Profile → Prop}

theorem tracks_shutDown (h_timer : ∀ {b c}, R b c → R (Board.stopTimer b) (Board.stopTimer c))
    (h_low : ∀ pin, Action.Tracks R p Q (Board.setLow pin) (Board.setLow pin)) :
    Action.Tracks (OnBoards R) p Q shutDown shutDown :=
  tracks_of_facing (mirrors_shutDown h_timer fun pin => (h_low pin).mirrors)

/-- Both engines stop alike if they wait and shut down alike. -/
theorem tracks_stop {wait : Nat → Action (Engine β) Unit} {wait' : Nat → Action (Engine γ) Unit}
    (h_down : Action.Tracks S p Q shutDown shutDown)
    (h_wait : ∀ k, Action.Tracks S p Q (wait k) (wait' k))
    (h_same : ∀ {e t}, S e t →
      t.started = e.started ∧ t.config = e.config ∧ t.pulseInFlight = e.pulseInFlight) :
    Action.Tracks S p Q (stop wait) (stop wait') :=
  Action.tracks_iff_mirrors.2 (mirrors_stop h_down.mirrors (fun k => (h_wait k).mirrors) h_same)

end Stop

end Engine

namespace CallsTrack

open Engine

variable {β γ : Type} [Board β] [Board γ] {R : β → γ → Prop} {p : Profile} {Q : Profile → Prop}
  (h : CallsTrack R p Q)

include h

theorem configureOutputs :
    Action.Tracks (OnBoards R) p Q Engine.configureOutputs Engine.configureOutputs := by
  refine .get_bind ?_
  rintro e t ⟨c, -, rfl⟩
  refine .forM fun channel _ => ?_
  rintro e _ ⟨c, h_rel, rfl⟩ ⟨⟩ e' h_run
  have h_level := h.isHigh h_rel channel.pin
  -- only a pin that is low on both boards is made an output
  cases h_high : Board.isHigh e.board channel.pin with
  | true =>
    rw [Action.run_get_bind, h_high] at h_run
    -- a high pin is left alone on either board
    obtain ⟨-, rfl⟩ := Action.run_pure_eq_ok_iff.1 h_run
    refine ⟨e.onto c, fun q _ => ?_, c, h_rel, rfl⟩
    rw [Action.run_get_bind]
    change Action.run (if Board.isHigh c channel.pin then _ else _) q _ = _
    rw [h_level, h_high]
    rfl
  | false =>
    rw [Action.run_get_bind, h_high] at h_run
    obtain rfl := Action.run_modify_eq_ok_iff.1 h_run
    -- a low pin becomes an output on either board
    refine ⟨_, fun q _ => ?_, _, h.configureOutput h_rel channel.pin h_high, rfl⟩
    rw [Action.run_get_bind]
    change Action.run (if Board.isHigh c channel.pin then _ else _) q _ = _
    rw [h_level, h_high]
    rfl

/-- **Shutdowns.** Both engines are shut down alike. -/
theorem shutDown : Action.Tracks (OnBoards R) p Q Engine.shutDown Engine.shutDown :=
  tracks_shutDown h.stopTimer h.setLow

/-- **Stops.** Both engines stop alike if they wait alike. -/
theorem stop {wait : Nat → Action (Engine β) Unit} {wait' : Nat → Action (Engine γ) Unit}
    (h_wait : ∀ k, Action.Tracks (OnBoards R) p Q (wait k) (wait' k)) :
    Action.Tracks (OnBoards R) p Q (Engine.stop wait) (Engine.stop wait') := by
  refine tracks_stop h.shutDown h_wait ?_
  rintro e t ⟨c, -, rfl⟩
  exact ⟨rfl, rfl, rfl⟩

theorem launch : Action.Tracks (OnBoards R) p Q Engine.launch Engine.launch :=
  tracks_of_facing (mirrors_launch h.startTimer.mirrors)

theorem reconfigure (pins : List Nat) :
    Action.Tracks (OnBoards R) p Q (Engine.reconfigure pins) (Engine.reconfigure pins) := by
  refine .bind (tracks_modify (fun _ => rfl) fun _ _ => rfl) fun _ => ?_
  exact .bind h.configureOutputs fun _ => tracks_modify (fun _ => rfl) fun _ _ => rfl

/-- **Starts.** Both engines start alike, or refuse for the same reason. -/
theorem start (pins? : Option (List Nat)) :
    Action.Tracks (OnBoards R) p Q (Engine.start pins?) (Engine.start pins?) := by
  refine .get_bind ?_
  rintro e t ⟨c, h_rel, rfl⟩
  -- the check reads the engine and the pins that may be used, and both agree
  have h_check : (e.onto c).checkStart pins? = e.checkStart pins? := by
    unfold Engine.checkStart
    rw [show (e.onto c).board = c from rfl, h.eligible h_rel]
    rfl
  rw [h_check]
  cases e.checkStart pins? with
  | error error => exact .pure _
  | ok =>
    cases pins? with
    | some pins =>
      refine .bind (h.reconfigure pins) fun _ => ?_
      exact .ite (.pure _) (.bind h.launch fun _ => .pure _)
    | none =>
      refine .ite (.pure _) (.bind (tracks_modify (fun _ => rfl) fun _ _ => rfl) fun _ => ?_)
      exact .bind h.launch fun _ => .pure _

end CallsTrack

namespace FallsTrack

open Engine

variable {β γ : Type} [Board β] [Board γ] {R : β → γ → Prop} {p : Profile} {Q : Profile → Prop}
  (h : FallsTrack R p Q)

include h

theorem mirror : FallsMirror R (fun _ => True) p Q where
  counter h_rel := (h.counter h_rel).mirrors
  armCompare value := (h.armCompare value).mirrors
  disarmCompare := h.disarmCompare
  setLow pin := (h.setLow pin).mirrors

/-- Both engines lower the same pins at the same times, and arm for the same values. -/
theorem fallDue : Action.Tracks (OnBoards R) p Q Engine.fallDue Engine.fallDue :=
  tracks_of_facing h.mirror.fallDue

section Ready

variable {ready : Nat → Prop}
  (h_high : ∀ pin, ready pin → Action.Tracks R p Q (Board.setHigh pin) (Board.setHigh pin))

include h_high

/-- A period raises the pins of the channels alone, so it is enough that raising these tracks. -/
theorem turn :
    Action.Tracks (fun e t => OnBoards R e t ∧ ∀ c ∈ e.table.active, ready c.pin) p Q
      Engine.turn Engine.turn :=
  Action.tracks_iff_mirrors.2 (h.mirror.turn fun pin h_pin => (h_high pin h_pin).mirrors)

theorem interrupt
    (h_overflow : ∀ {b c}, R b c → (Board.takeOverflow c).1 = (Board.takeOverflow b).1 ∧
      R (Board.takeOverflow b).2 (Board.takeOverflow c).2)
    (h_compare : ∀ {b c}, R b c → (Board.takeCompare c).1 = (Board.takeCompare b).1 ∧
      R (Board.takeCompare b).2 (Board.takeCompare c).2) :
    Action.Tracks (fun e t => OnBoards R e t ∧ ∀ c ∈ e.table.active, ready c.pin) p Q
      Engine.interrupt Engine.interrupt :=
  Action.tracks_iff_mirrors.2 (h.mirror.interrupt (fun pin h_pin => (h_high pin h_pin).mirrors)
    h_overflow h_compare)

end Ready

end FallsTrack

namespace BoardTracks

open Engine

variable {β γ : Type} [Board β] [Board γ] {R : β → γ → Prop} {p : Profile} {Q : Profile → Prop}
  (h : BoardTracks R p Q)

include h

/-- **Interrupts.** Both engines serve the interrupt alike. -/
theorem interrupt : Action.Tracks (OnBoards R) p Q Engine.interrupt Engine.interrupt :=
  have h_all : ∀ pin : Nat, True → Action.Tracks R p Q (Board.setHigh pin) (Board.setHigh pin) :=
    fun pin _ => h.setHigh pin
  .of_keeping (fun _ _ _ => trivial) (h.toFallsTrack.interrupt h_all h.takeOverflow h.takeCompare)

end BoardTracks

end ServoPulse
