import Mathlib.Order.Defs.Unbundled
import Mathlib.Tactic.Common
import ServoPulse.Action

/-!
# Runs that succeed

What an action did, read off a run of it that did not trap. A successful run of a
sequence is a chain of successful runs of its parts (`Action.run_bind_eq_ok_iff`); the
equivalences of this file take the parts apart one by one, so that a proof about an
operation names the states between its steps and nothing else.

`Action.Keeps` lifts a preorder on states through whole programs: if every primitive step
moves up in it, so does every successful run (`Keeps.bind`, `Keeps.forM`,
`Keeps.repeatWhile`).
-/

namespace ServoPulse

namespace Checked

variable {α β : Type} {p : Profile}

/-! ### Values that came out -/

theorem run_bind_eq_ok_iff {x : Checked α} {f : α → Checked β} {b : β} :
    run (x >>= f) p = .ok b ↔ ∃ a, run x p = .ok a ∧ run (f a) p = .ok b := by
  rw [run_bind]
  cases run x p <;> simp

theorem run_map_eq_ok_iff {f : α → β} {x : Checked α} {b : β} :
    run (f <$> x) p = .ok b ↔ ∃ a, run x p = .ok a ∧ f a = b := by
  rw [run_map]
  cases run x p <;> simp

/-- In the `debug` profile only a sum within its width comes out. -/
theorem run_add_debug_iff {w : Width} {a b n : Nat} :
    run (add w a b) .debug = .ok n ↔ a + b < w.size ∧ a + b = n := by
  change (if a + b < w.size then Except.ok (a + b) else Except.error Trap.addOverflow) = .ok n ↔ _
  split <;> simp [*]

/-- In the `debug` profile only a difference from zero up comes out. -/
theorem run_sub_debug_iff {w : Width} {a b n : Nat} :
    run (sub w a b) .debug = .ok n ↔ b ≤ a ∧ a - b = n := by
  change (if b ≤ a then Except.ok (a - b) else Except.error Trap.subOverflow) = .ok n ↔ _
  split <;> simp [*]

/-- A difference comes out unless it is below zero in the `debug` profile. -/
theorem exists_run_sub {w : Width} {a b : Nat} (h : p = .debug → b ≤ a) :
    ∃ n, run (sub w a b) p = .ok n := by
  cases p with
  | debug => exact ⟨a - b, run_sub_debug_iff.2 ⟨h rfl, rfl⟩⟩
  | release => exact ⟨_, rfl⟩

end Checked

namespace Action

variable {σ τ α β γ : Type} {p : Profile} {s s' : σ}

/-! ### Taking a run apart -/

theorem run_pure_eq_ok_iff {a b : α} :
    run (pure a : Action σ α) p s = .ok b s' ↔ a = b ∧ s = s' := by
  rw [run_pure, EStateM.Result.ok.injEq]

theorem run_modify_eq_ok_iff {f : σ → σ} {u : PUnit} :
    run (modify f : Action σ PUnit) p s = .ok u s' ↔ f s = s' := by
  rw [run_modify, EStateM.Result.ok.injEq]
  exact ⟨And.right, fun h => ⟨rfl, h⟩⟩

theorem run_zoom_eq_ok_iff {part : σ → τ} {put : τ → σ → σ} {x : Action τ α} {a : α} :
    run (zoom part put x) p s = .ok a s' ↔
      ∃ t, run x p (part s) = .ok a t ∧ put t s = s' := by
  rw [run_zoom]
  cases run x p (part s) with
  | ok b t =>
    simp only [EStateM.Result.ok.injEq]
    -- the state is the old one with the part that the action left
    constructor
    · rintro ⟨rfl, rfl⟩
      exact ⟨t, ⟨rfl, rfl⟩, rfl⟩
    · rintro ⟨_, ⟨rfl, rfl⟩, rfl⟩
      exact ⟨rfl, rfl⟩
  | error => simp

theorem run_liftM_eq_ok_iff {x : Checked α} {a : α} :
    run (liftM x : Action σ α) p s = .ok a s' ↔ Checked.run x p = .ok a ∧ s = s' := by
  rw [run_liftM]
  cases Checked.run x p <;> simp

theorem run_get_bind (f : σ → Action σ α) : run (get >>= f) p s = run (f s) p s := rfl

theorem run_modify_bind (f : σ → σ) (k : PUnit → Action σ α) :
    run (modify f >>= k) p s = run (k ⟨⟩) p (f s) := rfl

theorem run_liftM_bind_eq_ok_iff {x : Checked β} {k : β → Action σ α} {a : α} :
    run ((liftM x : Action σ β) >>= k) p s = .ok a s' ↔
      ∃ b, Checked.run x p = .ok b ∧ run (k b) p s = .ok a s' := by
  rw [run_bind_eq_ok_iff]
  constructor
  · rintro ⟨b, t, hx, hk⟩
    obtain ⟨hv, rfl⟩ := run_liftM_eq_ok_iff.1 hx
    exact ⟨b, hv, hk⟩
  · rintro ⟨b, hx, hk⟩
    exact ⟨b, s, (run_liftM_eq_ok_iff (σ := σ)).2 ⟨hx, rfl⟩, hk⟩

theorem run_forM_nil_eq_ok_iff {f : γ → Action σ PUnit} {u : PUnit} :
    run (([] : List γ).forM f) p s = .ok u s' ↔ s = s' := by
  rw [List.forM_eq_forM, List.forM_nil, run_pure_eq_ok_iff]
  exact ⟨And.right, fun h => ⟨rfl, h⟩⟩

theorem run_forM_cons_eq_ok_iff {f : γ → Action σ PUnit} {g : γ} {l : List γ} {u : PUnit} :
    run ((g :: l).forM f) p s = .ok u s' ↔
      ∃ t, run (f g) p s = .ok ⟨⟩ t ∧ run (l.forM f) p t = .ok u s' := by
  rw [List.forM_eq_forM, List.forM_cons, run_bind_eq_ok_iff]
  exact ⟨fun ⟨_, t, h⟩ => ⟨t, h⟩, fun ⟨t, h⟩ => ⟨⟨⟩, t, h⟩⟩

/-! ### Preorders that a run moves up in -/

/-- Every successful run of `x` leads up in `R`. -/
def Keeps (R : σ → σ → Prop) (p : Profile) (x : Action σ α) : Prop :=
  ∀ ⦃s a s'⦄, run x p s = .ok a s' → R s s'

section Keeps

variable {R : σ → σ → Prop} [IsPreorder σ R]

theorem Keeps.pure (a : α) : Keeps R p (Pure.pure a : Action σ α) := by
  intro s b s' h
  obtain ⟨-, rfl⟩ := run_pure_eq_ok_iff.1 h
  exact Std.Refl.refl s

theorem Keeps.bind {x : Action σ α} {f : α → Action σ β}
    (hx : Keeps R p x) (hf : ∀ a, Keeps R p (f a)) : Keeps R p (x >>= f) := by
  intro s b s' h
  obtain ⟨a, t, hxt, hft⟩ := run_bind_eq_ok_iff.1 h
  exact IsTrans.trans s t s' (hx hxt) (hf a hft)

theorem Keeps.forM {f : γ → Action σ PUnit} {l : List γ}
    (hf : ∀ g ∈ l, Keeps R p (f g)) : Keeps R p (l.forM f) := by
  -- by induction on the list, as the relation is reflexive and transitive
  induction l with
  | nil =>
    intro s u s' h
    obtain rfl := run_forM_nil_eq_ok_iff.1 h
    exact Std.Refl.refl s
  | cons g l ih =>
    intro s u s' h
    obtain ⟨t, hg, hl⟩ := run_forM_cons_eq_ok_iff.1 h
    exact IsTrans.trans s t s' (hf g (by simp) hg)
      (ih (fun g' hg' => hf g' (by simp [hg'])) hl)

theorem Keeps.repeatWhile {x : Action σ Bool} (hx : Keeps R p x)
    (fuel : Nat) : Keeps R p (repeatWhile x fuel) := by
  -- by induction on the fuel: each round keeps the relation
  induction fuel with
  | zero => exact Keeps.pure _
  | succ fuel ih =>
    refine Keeps.bind hx fun more => ?_
    cases more with
    | true => exact ih
    | false => exact Keeps.pure _

end Keeps

end Action

end ServoPulse
