import ServoPulse.Proofs.Effects.Pulses

/-!
# Settling that takes no time

Where arming the compare channel takes no time, what is due when the queue is settled is the same
from the beginning to the end. Settling then carries out the falls that are due, in the order of the
queue, and leaves the compare channel armed for the next one if that is in the present turn of the
counter, and disarmed if it is not (`settledNow_of_run_fallDue`). Nothing is assumed of the falls
but their order: they may be due in any turn of the counter.
-/

namespace ServoPulse

namespace PinBank

variable {P : Type} [PinBank P] {p : Profile} {level : Bool} {now pin : Nat} {pins : List Nat}
  {r r' : P}

/-- One request after a list of them. -/
theorem run_driveAll_concat {t : P} (h : (driveAll level now pins).run p r = .ok () t)
    (h_last : (drive level now pin).run p t = .ok () r') :
    (driveAll level now (pins ++ [pin])).run p r = .ok () r' := by
  induction pins generalizing r with
  | nil =>
    obtain rfl := Action.run_forM_nil_eq_ok_iff.1 h
    exact Action.run_forM_cons_eq_ok_iff.2 ⟨r', h_last, Action.run_forM_nil_eq_ok_iff.2 rfl⟩
  | cons first pins ih =>
    obtain ⟨s, h_first, h_rest⟩ := Action.run_forM_cons_eq_ok_iff.1 h
    exact Action.run_forM_cons_eq_ok_iff.2 ⟨s, h_first, ih h_rest⟩

end PinBank

namespace Engine

variable {P : Type} [PinBank P] {e e' t : Engine (Bench P)}

/-! ### Settling at once -/

/-- The engine `t` is `e` in the course of settling: of the falls that are due some were carried
out, and the compare channel may be set. -/
structure Lowering (e t : Engine (Bench P)) : Prop where
  clock_eq : t.clock = { e.clock with compare := t.clock.compare }
  lag_eq : t.board.lag = e.board.lag
  wrap_eq : t.wrap = e.wrap
  config_eq : t.config = e.config
  phase_eq : t.phase = e.phase
  falls : ∃ done, e.queue.events = done ++ t.queue.events ∧ (∀ f ∈ done, f.due ≤ e.seen) ∧
    (PinBank.driveAll false e.clock.now (done.map Fall.pin)).run .debug e.pins = .ok () t.pins

namespace Lowering

theorem refl (e : Engine (Bench P)) : Lowering e e where
  clock_eq := rfl
  lag_eq := rfl
  wrap_eq := rfl
  config_eq := rfl
  phase_eq := rfl
  falls := ⟨[], rfl, nofun, rfl⟩

theorem seen_eq (h : Lowering e t) : t.seen = e.seen := by
  rw [seen, seen, shown, shown, Clock.count, Clock.count, h.clock_eq, h.wrap_eq]

theorem settleStable (h_lag : e.board.lag = 0) : SettleStable (Lowering e) where
  lower {t t' f rest} h h_queue h_due _ h_run := by
    -- the fall that was lowered joins those that are done
    obtain ⟨pins, h_pins, rfl⟩ := run_lower_eq_ok_iff.1 h_run
    obtain ⟨done, h_split, h_done, h_driven⟩ := h.falls
    have h_now : t.clock.now = e.clock.now := by rw [h.clock_eq]
    refine ⟨h.clock_eq, h.lag_eq, h.wrap_eq, h.config_eq, h.phase_eq, done ++ [f], ?_, ?_, ?_⟩
    · rw [h_split, h_queue, List.append_assoc]
      rfl
    · intro g hg
      rcases List.mem_append.1 hg with hg | hg
      · exact h_done g hg
      · -- the instant is that at which settling began
        rw [List.mem_singleton.1 hg, ← h.seen_eq]
        exact h_due
    · rw [List.map_append]
      exact PinBank.run_driveAll_concat h_driven (h_now ▸ h_pins)
  arm {t f rest limit clock} h _ _ _ h_limit h_pass := by
    -- no time passes, so the compare value is all that changes
    obtain ⟨-, rfl⟩ := Checked.run_add_debug_iff.1 h_limit
    rw [h.lag_eq, h_lag] at h_pass
    obtain rfl := Clock.passUntil_eq_of_le h_pass (Nat.le_refl _)
    refine ⟨?_, h.lag_eq, h.wrap_eq, h.config_eq, h.phase_eq, h.falls⟩
    change t.clock.arm f.compareValue = { e.clock with compare := some f.compareValue }
    rw [Clock.arm, h.clock_eq]

end Lowering

/-- What is due now was carried out, and the compare channel is armed for the next fall if that is
in the present turn of the counter. -/
structure SettledNow (e e' : Engine (Bench P)) : Prop where
  clock_eq : e'.clock = { e.clock with compare := e'.clock.compare }
  lag_eq : e'.board.lag = e.board.lag
  wrap_eq : e'.wrap = e.wrap
  config_eq : e'.config = e.config
  not_halted : e.phase ≠ .halted → e'.phase ≠ .halted
  falls : ∃ done, e.queue.events = done ++ e'.queue.events ∧ (∀ f ∈ done, f.due ≤ e.seen) ∧
    (PinBank.driveAll false e.clock.now (done.map Fall.pin)).run .debug e.pins = .ok () e'.pins
  ahead : ∀ f ∈ e'.queue.events, e.seen < f.due
  compare_eq : e'.clock.compare =
    (e'.queue.events.head?.filter (·.wrap = e.wrap)).map Fall.compareValue

/-- **Settling at once.** Where arming the compare channel takes no time and no match is waiting. -/
theorem settledNow_of_run_fallDue (h_lag : e.board.lag = 0)
    (h_match : e.clock.comparePending = false) (h_sorted : e.queue.events.Pairwise (· ≤ ·))
    (h_run : fallDue.run .debug e = .ok () e') : SettledNow e e' := by
  obtain ⟨t, h_t, h_end⟩ := settled_of_run_fallDue (Lowering.settleStable h_lag) (.refl e) h_run
  obtain ⟨done, h_split, h_done, h_pins⟩ := h_t.falls
  -- the next fall is ahead, and so are those that come after it
  have h_ahead {f : Fall} {rest : List Fall} (h_queue : t.queue.events = f :: rest)
      (h_due : t.seen < f.due) : ∀ g ∈ t.queue.events, e.seen < g.due := by
    rw [h_split, List.pairwise_append, h_queue] at h_sorted
    rw [h_t.seen_eq] at h_due
    rw [h_queue]
    intro g hg
    exact Nat.lt_of_lt_of_le h_due (FallQueue.first_due_le h_sorted.2.1 hg)
  -- with no match pending, disarming is all that tells the clocks apart
  have h_disarm : t.clock.disarm = { e.clock with compare := none } := by
    rw [Clock.disarm, h_t.clock_eq, ← h_match]
  cases h_end with
  | empty h_queue =>
    -- every fall has been served, and there is no next one to arm for
    refine ⟨h_disarm, h_t.lag_eq, h_t.wrap_eq, h_t.config_eq, fun _ => nofun,
      ⟨done, h_split, h_done, h_pins⟩, fun f hf => ?_, ?_⟩
    · exact absurd (h_queue ▸ hf) List.not_mem_nil
    · change none = (t.queue.events.head?.filter _).map Fall.compareValue
      rw [h_queue]
      rfl
  | @later f rest h_queue h_due h_wrap =>
    -- the next fall is of another turn, so the channel stays disarmed
    refine ⟨h_disarm, h_t.lag_eq, h_t.wrap_eq, h_t.config_eq, fun h_on => h_t.phase_eq ▸ h_on,
      ⟨done, h_split, h_done, h_pins⟩, h_ahead h_queue h_due, ?_⟩
    have h_other : f.wrap ≠ e.wrap := h_t.wrap_eq ▸ h_wrap
    change none = (t.queue.events.head?.filter _).map Fall.compareValue
    rw [h_queue, List.head?_cons, Option.filter_some, if_neg (by simpa using h_other)]
    rfl
  | @armed f rest h_queue h_due h_wrap h_compare =>
    -- the next fall is of this turn, and the channel is armed for it
    refine ⟨h_t.clock_eq, h_t.lag_eq, h_t.wrap_eq, h_t.config_eq, fun h_on => h_t.phase_eq ▸ h_on,
      ⟨done, h_split, h_done, h_pins⟩, h_ahead h_queue h_due, ?_⟩
    have h_same : f.wrap = e.wrap := h_wrap.trans h_t.wrap_eq
    rw [h_compare, h_queue, List.head?_cons, Option.filter_some, if_pos (by simpa using h_same)]
    rfl

end Engine

end ServoPulse
