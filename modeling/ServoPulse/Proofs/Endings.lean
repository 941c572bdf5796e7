import ServoPulse.Proofs.Effects.Calls

/-!
# How a program ends

A program returns, or a trap ends it where it stands. `Action.Ends` says what holds in either case,
with one rule for each way to build a program, so that one walk through a program settles both. A
program that leaves a part of the state alone (`Action.Leaves`) does so wherever it ends. On a board
of which nothing is known, such a walk says what a start answers (`Engine.answer_of_run_start`).
-/

namespace ServoPulse

namespace Checked

variable {α β : Type} {p : Profile} {trap : Trap}

/-! ### Values that did not come out -/

theorem run_map_eq_error_iff {f : α → β} {x : Checked α} :
    run (f <$> x) p = .error trap ↔ run x p = .error trap := by
  rw [run_map]
  cases run x p <;> simp

/-- With or without a check, a sum is not more than it should be. -/
theorem le_of_run_add {w : Width} {a b n : Nat} (h : run (add w a b) p = .ok n) : n ≤ a + b := by
  cases p with
  | debug => exact Nat.le_of_eq (run_add_debug_iff.1 h).2.symm
  | release => exact Except.ok.inj h ▸ Nat.mod_le _ _

theorem size_le_of_run_add {w : Width} {a b : Nat} (h : run (add w a b) p = .error trap) :
    w.size ≤ a + b := by
  refine Nat.le_of_not_lt fun h_lt => ?_
  rw [run_add_of_lt h_lt] at h
  cases h

/-- A sum traps in the `debug` profile only. -/
theorem debug_of_run_add {w : Width} {a b : Nat} (h : run (add w a b) p = .error trap) :
    p = .debug := by
  cases p with
  | debug => rfl
  | release => cases h

/-- A difference traps in the `debug` profile only. -/
theorem debug_of_run_sub {w : Width} {a b : Nat} (h : run (sub w a b) p = .error trap) :
    p = .debug := by
  cases p with
  | debug => rfl
  | release => cases h

theorem lt_of_run_sub {w : Width} {a b : Nat} (h : run (sub w a b) .debug = .error trap) :
    a < b := by
  refine Nat.lt_of_not_le fun h_le => ?_
  rw [run_sub_debug_iff.2 ⟨h_le, rfl⟩] at h
  cases h

end Checked

namespace Action

variable {σ τ υ α β γ : Type} {p : Profile} {s s' : σ} {Q Q' : α → σ → Prop} {R : β → σ → Prop}
  {E E' : σ → Prop}

/-- From `s` the run of `x` returns, with an answer and a state as `Q` says, or it traps, in a state
as `E` says. -/
def Ends (p : Profile) (x : Action σ α) (s : σ) (Q : α → σ → Prop) (E : σ → Prop) : Prop :=
  match x.run p s with
  | .ok a s' => Q a s'
  | .error _ s' => E s'

theorem ends_iff {x : Action σ α} :
    Ends p x s Q E ↔ (∀ a s', x.run p s = .ok a s' → Q a s') ∧
      ∀ trap s', x.run p s = .error trap s' → E s' := by
  unfold Ends
  cases x.run p s with
  | ok a t => simp
  | error trap t => simp

/-- What holds wherever a program ends. -/
theorem ends_iff_forall_endsIn {x : Action σ α} :
    Ends p x s (fun _ => E) E ↔ ∀ s', x.EndsIn p s s' → E s' := by
  rw [ends_iff]
  -- both outcomes end in a state, and the post-condition is the same for both
  constructor
  · rintro ⟨h_ok, h_trap⟩ s' (⟨a, h⟩ | ⟨trap, h⟩)
    · exact h_ok a s' h
    · exact h_trap trap s' h
  · intro h
    exact ⟨fun a s' h_run => h s' (.inl ⟨a, h_run⟩), fun trap s' h_run => h s' (.inr ⟨trap, h_run⟩)⟩

namespace Ends

theorem of_endsIn {x : Action σ α} (h : Ends p x s (fun _ => E) E) (h_end : x.EndsIn p s s') :
    E s' :=
  ends_iff_forall_endsIn.1 h s' h_end

theorem of_run {x : Action σ α} {a : α} (h : Ends p x s Q E) (h_run : x.run p s = .ok a s') :
    Q a s' :=
  (ends_iff.1 h).1 a s' h_run

theorem mono {x : Action σ α} (h : Ends p x s Q E) (h_Q : ∀ a s', Q a s' → Q' a s')
    (h_E : ∀ s', E s' → E' s') : Ends p x s Q' E' := by
  obtain ⟨h_ok, h_trap⟩ := ends_iff.1 h
  exact ends_iff.2 ⟨fun a s' h_run => h_Q a s' (h_ok a s' h_run),
    fun trap s' h_run => h_E s' (h_trap trap s' h_run)⟩

/-- What follows from what holds wherever `x` ends. -/
theorem imp {x : Action σ α} (h : Ends p x s (fun _ => E) E) (h_imp : ∀ s', E s' → E' s') :
    Ends p x s (fun _ => E') E' :=
  h.mono (fun _ => h_imp) h_imp

/-- A run ends, and that is all. -/
theorem any (x : Action σ α) : Ends p x s (fun _ _ => True) fun _ => True :=
  ends_iff.2 ⟨fun _ _ _ => trivial, fun _ _ _ => trivial⟩

theorem pure {a : α} (h : Q a s) : Ends p (Pure.pure a) s Q E := h

theorem ok {x : Action σ α} {a : α} (h_run : x.run p s = .ok a s') (h : Q a s') :
    Ends p x s Q E := by
  unfold Ends
  rw [h_run]
  exact h

/-- A trap in the first part ends the whole. -/
theorem bind {x : Action σ α} {f : α → Action σ β} (h : Ends p x s Q E)
    (h_rest : ∀ a s', Q a s' → Ends p (f a) s' R E) : Ends p (x >>= f) s R E := by
  unfold Ends at h ⊢
  rw [run_bind]
  -- the first part returned and the rest runs from there
  cases h_run : x.run p s with
  | ok a t =>
    rw [h_run] at h
    exact h_rest a t h
  | error trap t =>
    -- a trap of the first part is that of the whole
    rw [h_run] at h
    exact h

theorem get_bind {f : σ → Action σ α} (h : Ends p (f s) s Q E) : Ends p (get >>= f) s Q E := h

theorem modify_bind {f : σ → σ} {k : PUnit → Action σ α} (h : Ends p (k ⟨⟩) (f s) Q E) :
    Ends p (modify f >>= k) s Q E := h

theorem ite {c : Prop} [Decidable c] {x y : Action σ α} (h_pos : c → Ends p x s Q E)
    (h_neg : ¬c → Ends p y s Q E) : Ends p (if c then x else y) s Q E := by
  split
  · exact h_pos ‹c›
  · exact h_neg ‹¬c›

/-- A computed value may trap, and leaves the state alone. -/
theorem checked {x : Checked α} (h : ∀ a, Q a s) (h_trap : ∀ trap, x.run p = .error trap → E s) :
    Ends p (liftM x : Action σ α) s Q E := by
  unfold Ends
  rw [run_liftM]
  cases h_run : x.run p with
  | ok a => exact h a
  | error trap => exact h_trap trap h_run

theorem liftM_bind_of_run {x : Checked β} {f : β → Action σ α}
    (h : ∀ b, x.run p = .ok b → Ends p (f b) s Q E) (h_trap : ∀ trap, x.run p = .error trap → E s) :
    Ends p ((liftM x : Action σ β) >>= f) s Q E := by
  unfold Ends
  rw [run_bind, run_liftM]
  cases h_run : x.run p with
  | ok b => exact h b h_run
  | error trap => exact h_trap trap h_run

theorem liftM_bind_of_trap {x : Checked β} {f : β → Action σ α} (h : ∀ b, Ends p (f b) s Q E)
    (h_trap : ∀ trap, x.run p = .error trap → E s) :
    Ends p ((liftM x : Action σ β) >>= f) s Q E :=
  liftM_bind_of_run (fun b _ => h b) h_trap

theorem liftM_bind {x : Checked β} {f : β → Action σ α} (h : ∀ b, Ends p (f b) s Q E)
    (h_trap : E s) : Ends p ((liftM x : Action σ β) >>= f) s Q E :=
  liftM_bind_of_trap h fun _ _ => h_trap

end Ends

/-- A program on a part of the state. -/
theorem Ends.zoom {part : σ → τ} {put : τ → σ → σ} {x : Action τ α}
    (h : Ends p x (part s) (fun a t => Q a (put t s)) fun t => E (put t s)) :
    Ends p (zoom part put x) s Q E := by
  unfold Ends at h ⊢
  rw [run_zoom]
  -- the part ends as it would alone, and is put back
  cases h_run : x.run p (part s) with
  | ok a t =>
    rw [h_run] at h
    exact h
  | error trap t =>
    rw [h_run] at h
    exact h

/-! ### Invariants -/

/-- From where `I` holds, `x` returns to where it holds, or traps where `E` holds. -/
def Confined (I E : σ → Prop) (p : Profile) (x : Action σ α) : Prop :=
  ∀ s, I s → Ends p x s (fun _ => I) E

namespace Confined

variable {I : σ → Prop}

theorem pure (a : α) : Confined I E p (Pure.pure a : Action σ α) := fun _ h => h

theorem bind {x : Action σ α} {f : α → Action σ β} (hx : Confined I E p x)
    (hf : ∀ a, Confined I E p (f a)) : Confined I E p (x >>= f) :=
  fun s h => (hx s h).bind fun a => hf a

theorem forM {f : γ → Action σ PUnit} {l : List γ} (h : ∀ g ∈ l, Confined I E p (f g)) :
    Confined I E p (l.forM f) := by
  induction l with
  | nil => exact pure _
  | cons g l ih =>
    exact (h g List.mem_cons_self).bind fun _ => ih fun g' hg' => h g' (List.mem_cons_of_mem g hg')

theorem get_bind {f : σ → Action σ α} (h : ∀ s, Confined I E p (f s)) :
    Confined I E p (get >>= f) :=
  fun s hs => h s s hs

theorem modify {f : σ → σ} (h : ∀ s, I s → I (f s)) :
    Confined I E p (modify f : Action σ PUnit) := h

theorem ite {c : Prop} [Decidable c] {x y : Action σ α} (hx : Confined I E p x)
    (hy : Confined I E p y) : Confined I E p (if c then x else y) := by
  split
  · exact hx
  · exact hy

theorem liftM_bind {x : Checked β} {f : β → Action σ α} (h : ∀ b, Confined I E p (f b))
    (h_trap : ∀ s, I s → E s) : Confined I E p ((liftM x : Action σ β) >>= f) :=
  fun s hs => .liftM_bind (fun b => h b s hs) (h_trap s hs)

/-- A value is computed from the state, which may trap. -/
theorem get_liftM_bind {x : σ → Checked β} {f : σ → β → Action σ α}
    (h : ∀ s b, Confined I E p (f s b))
    (h_trap : ∀ s trap, I s → (x s).run p = .error trap → E s) :
    Confined I E p (do let s ← get; let b ← x s; f s b) :=
  fun s hs => .get_bind (.liftM_bind_of_trap (fun b => h s b s hs) fun trap => h_trap s trap hs)

theorem repeatWhile {x : Action σ Bool} (h : Confined I E p x) :
    ∀ fuel, Confined I E p (repeatWhile x fuel)
  | 0 => pure _
  | fuel + 1 => h.bind fun _ => fun s hs => .ite (fun _ => repeatWhile h fuel s hs) fun _ => hs

theorem mono {E' : σ → Prop} {x : Action σ α} (h : Confined I E p x) (h_E : ∀ s, E s → E' s) :
    Confined I E' p x :=
  fun s hs => (h s hs).mono (fun _ _ => id) h_E

end Confined

/-- What holds before `x` holds wherever it ends. -/
def Preserves (I : σ → Prop) (p : Profile) (x : Action σ α) : Prop :=
  ∀ s, I s → Ends p x s (fun _ => I) I

namespace Preserves

variable {I : σ → Prop}

theorem pure (a : α) : Preserves I p (Pure.pure a : Action σ α) := Confined.pure a

theorem bind {x : Action σ α} {f : α → Action σ β} (hx : Preserves I p x)
    (hf : ∀ a, Preserves I p (f a)) : Preserves I p (x >>= f) := Confined.bind hx hf

theorem forM {f : γ → Action σ PUnit} {l : List γ} (h : ∀ g ∈ l, Preserves I p (f g)) :
    Preserves I p (l.forM f) := Confined.forM h

theorem get_bind {f : σ → Action σ α} (h : ∀ s, Preserves I p (f s)) : Preserves I p (get >>= f) :=
  Confined.get_bind h

theorem ite {c : Prop} [Decidable c] {x y : Action σ α} (hx : Preserves I p x)
    (hy : Preserves I p y) : Preserves I p (if c then x else y) := Confined.ite hx hy

theorem liftM_bind {x : Checked β} {f : β → Action σ α} (h : ∀ b, Preserves I p (f b)) :
    Preserves I p ((liftM x : Action σ β) >>= f) := Confined.liftM_bind h fun _ => id

theorem repeatWhile {x : Action σ Bool} (h : Preserves I p x) (fuel : Nat) :
    Preserves I p (repeatWhile x fuel) := Confined.repeatWhile h fuel

end Preserves

/-! ### Parts of the state that are left alone -/

/-- Wherever `x` ends, the view of the state is what it was. -/
def Leaves (view : σ → υ) (p : Profile) (x : Action σ α) : Prop :=
  ∀ s, Ends p x s (fun _ s' => view s' = view s) fun s' => view s' = view s

namespace Leaves

variable {view : σ → υ}

theorem pure (a : α) : Leaves view p (Pure.pure a : Action σ α) := fun _ => .pure rfl

theorem bind {x : Action σ α} {f : α → Action σ β} (hx : Leaves view p x)
    (hf : ∀ a, Leaves view p (f a)) : Leaves view p (x >>= f) := by
  intro s
  refine (hx s).bind fun a t h_t => ?_
  exact (hf a t).imp fun s' h => h.trans h_t

theorem get_bind {f : σ → Action σ α} (h : ∀ s, Leaves view p (f s)) :
    Leaves view p (get >>= f) := fun s => h s s

theorem ite {c : Prop} [Decidable c] {x y : Action σ α} (hx : Leaves view p x)
    (hy : Leaves view p y) : Leaves view p (if c then x else y) := by
  split
  · exact hx
  · exact hy

theorem modify {f : σ → σ} (h : ∀ s, view (f s) = view s) :
    Leaves view p (modify f : Action σ PUnit) := h

theorem liftM (x : Checked α) : Leaves view p (liftM x : Action σ α) := by
  intro s
  unfold Ends
  rw [run_liftM]
  cases x.run p <;> rfl

theorem forM {f : γ → Action σ PUnit} {l : List γ} (h : ∀ g ∈ l, Leaves view p (f g)) :
    Leaves view p (l.forM f) := by
  induction l with
  | nil => exact pure _
  | cons g l ih =>
    refine bind (h g (by simp)) fun _ => ih fun g' hg' => h g' ?_
    exact List.mem_cons_of_mem _ hg'

/-- What `x` does to its part of the state does not show. -/
theorem zoom {part : σ → τ} {put : τ → σ → σ} {x : Action τ α}
    (h : ∀ s t, x.EndsIn p (part s) t → view (put t s) = view s) :
    Leaves view p (zoom part put x) := by
  refine fun s => ends_iff_forall_endsIn.2 fun s' h_end => ?_
  unfold EndsIn at h_end
  rw [run_zoom] at h_end
  -- return or trap, the part that is put back shows the same
  cases h_run : x.run p (part s) with
  | ok a t =>
    rw [h_run] at h_end
    obtain ⟨_, ⟨⟩⟩ | ⟨_, ⟨⟩⟩ := h_end
    exact h s t (.inl ⟨a, h_run⟩)
  | error trap t =>
    rw [h_run] at h_end
    obtain ⟨_, ⟨⟩⟩ | ⟨_, ⟨⟩⟩ := h_end
    exact h s t (.inr ⟨trap, h_run⟩)

end Leaves

end Action

/-! ### Engines on any board -/

namespace Engine

variable {α β : Type} {p : Profile}

/-- The board holds no channels. -/
theorem leaves_table_onBoard (x : Action β α) :
    Action.Leaves (σ := Engine β) Engine.table p (onBoard x) :=
  .zoom fun _ _ _ => rfl

/-- The answer of a start is what it has against the list, however the launch of the engine ends. -/
theorem answer_of_run_start [Board β] {e e' : Engine β} {pins? : Option (List Nat)}
    {answer : Except StartError Unit} (h : (start pins?).run p e = .ok answer e') :
    answer = e.checkStart pins? := by
  have h_ends : Action.Ends p (start pins?) e (fun answer _ => answer = e.checkStart pins?)
      fun _ => True := by
    refine .get_bind ?_
    cases h_check : e.checkStart pins? with
    | error error =>
      -- a start that is refused does nothing but to answer
      exact .pure rfl
    | ok _ =>
      -- a launch may trap, but what it returns is success
      have h_launch (t : Engine β) : Action.Ends p (do launch; return .ok ()) t
          (fun (answer : Except StartError Unit) _ => answer = .ok ()) fun _ => True :=
        (Action.Ends.any launch).bind fun _ _ _ => .pure rfl
      -- both kinds of call end in a launch or in nothing
      cases pins? with
      | none => exact .ite (fun _ => .pure rfl) fun _ => .modify_bind (h_launch _)
      | some pins =>
        refine (Action.Ends.any (reconfigure pins)).bind fun _ t _ => ?_
        exact .ite (fun _ => .pure rfl) fun _ => h_launch t
  exact h_ends.of_run h

end Engine

end ServoPulse
