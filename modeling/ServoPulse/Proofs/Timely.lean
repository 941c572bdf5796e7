import Mathlib.Data.List.Nodup
import ServoPulse.Proofs.PromptFalls
import ServoPulse.Proofs.Schedule

/-!
# Changes made in time

An engine is `Timely` by the times `r` and `s` when it has made the rises that are due by `r` and
the falls that are due by `s`, some of them late, and awaits the falls that come after `s`. Both
times move forward: as long as nothing is due they move for free (`Timely.wait`), beginning a period
takes the rises to its start (`Timely.begin`), and settling takes the falls to the time at which it
ends (`Timely.settle`).

The falls that settling carries out determine how late each of them is (`Accounts.exists_of_done`);
this is where the schedule is written down as the run goes on.
-/

namespace ServoPulse

/-- A change that is not stamped with a later time than another. -/
def Edge.NotAfter (x y : Edge) : Prop := ∀ s ∈ x.time?, ∀ t ∈ y.time?, s ≤ t

theorem Edge.notAfter_of_le {x y : Edge} {s t : Nat} (hx : x.time? = some s) (hy : y.time? = some t)
    (h : s ≤ t) : x.NotAfter y := by
  intro u hu v hv
  rw [hx] at hu
  rw [hy] at hv
  obtain rfl := Option.some.inj hu
  obtain rfl := Option.some.inj hv
  exact h

namespace Engine

variable {P : Type} [PinBank P] [LawfulPinBank P] {wraps origin n r r' s s' : Nat}
  {late : Nat → Nat → Nat} {inForce inForce' : Nat → ChannelTable}
  {e e' : Engine (Bench (Scope P))}

/-- The engine has made the changes that are due by the time `r` for the rises and by the time `s`
for the falls, after its first `n` changes, and awaits the falls to come. -/
structure Timely (wraps origin n : Nat) (late : Nat → Nat → Nat) (inForce : Nat → ChannelTable)
    (r s : Nat) (e : Engine (Bench (Scope P))) : Prop where
  le : s ≤ r
  sorted : e.queue.events.Pairwise (· ≤ ·)
  short : ∀ T, ∀ f ∈ (inForce T).step.falls, f.due ≤ maxTargetTicks
  pending_iff : ∀ f, f ∈ e.queue.events ↔
    ∃ k, f ∈ (inForce (periodStart wraps origin k)).step.falls ∧
      periodStart wraps origin k ≤ r ∧ s < periodStart wraps origin k + f.due
  late_le : ∀ k servo, late k servo ≤ e.board.lag - 1
  /-- Every fall that is due by `s` was carried out by `s`. -/
  late_by : ∀ k, ∀ f ∈ (inForce (periodStart wraps origin k)).step.falls,
    periodStart wraps origin k + f.due ≤ s →
      periodStart wraps origin k + f.due + late k f.servo ≤ s
  length_le : n ≤ e.edges.length
  edges_iff : ∀ x, x ∈ e.edges.drop n ↔ Made wraps origin late inForce r s x
  edges_nodup : (e.edges.drop n).Nodup
  edges_order : (e.edges.drop n).Pairwise Edge.NotAfter

namespace Timely

omit [PinBank P] [LawfulPinBank P] in
/-- The stamps of the changes made. -/
theorem stamp (h : Timely wraps origin n late inForce r s e) {x : Edge} (hx : x ∈ e.edges.drop n) :
    ∃ t, x.time? = some t ∧ t ≤ r ∧ (x.rising = false → t ≤ s) := by
  obtain ⟨k, f, hf, ⟨rfl, h_by⟩ | ⟨rfl, h_by⟩⟩ := (h.edges_iff x).1 hx
  · exact ⟨_, rfl, h_by, fun h_falling => Bool.noConfusion h_falling⟩
  · have h_late := h.late_by k f hf h_by
    exact ⟨_, rfl, Nat.le_trans h_late h.le, fun _ => h_late⟩

omit [PinBank P] [LawfulPinBank P] in
/-- Where arming takes no time, no fall is late. -/
theorem late_eq_zero (h : Timely wraps origin n late inForce r s e) (h_lag : e.board.lag = 0)
    (k servo : Nat) : late k servo = 0 := by
  have h_le := h.late_le k servo
  omega

omit [PinBank P] [LawfulPinBank P] in
/-- Changes that follow those so far. -/
theorem edges_append (h : Timely wraps origin n late inForce r s e) {new : List Edge}
    (h_edges : e'.edges = e.edges ++ new) (h_nodup : new.Nodup)
    (h_order : new.Pairwise Edge.NotAfter)
    (h_after : ∀ x ∈ e.edges.drop n, ∀ y ∈ new, x ≠ y ∧ x.NotAfter y) :
    n ≤ e'.edges.length ∧ e'.edges.drop n = e.edges.drop n ++ new ∧ (e'.edges.drop n).Nodup ∧
      (e'.edges.drop n).Pairwise Edge.NotAfter := by
  -- the changes before the first `n` stay where they are
  have h_drop : e'.edges.drop n = e.edges.drop n ++ new := by
    rw [h_edges, List.drop_append_of_le_length h.length_le]
  refine ⟨?_, h_drop, ?_, ?_⟩
  · rw [h_edges, List.length_append]
    exact Nat.le_add_right_of_le h.length_le
  · rw [h_drop]
    exact List.nodup_append.2 ⟨h.edges_nodup, h_nodup, fun x hx y hy => (h_after x hx y hy).1⟩
  · rw [h_drop]
    exact List.pairwise_append.2 ⟨h.edges_order, h_order, fun x hx y hy => (h_after x hx y hy).2⟩

omit [PinBank P] [LawfulPinBank P] in
/-- Only the tables that were in force by now matter. -/
theorem renew (h : Timely wraps origin n late inForce r s e)
    (h_old : ∀ T ≤ r, inForce' T = inForce T)
    (h_short : ∀ T, ∀ f ∈ (inForce' T).step.falls, f.due ≤ maxTargetTicks) :
    Timely wraps origin n late inForce' r s e where
  le := h.le
  sorted := h.sorted
  short := h_short
  pending_iff f := by
    rw [h.pending_iff f]
    refine exists_congr fun k => ⟨fun ⟨hf, h_le, h_lt⟩ => ?_, fun ⟨hf, h_le, h_lt⟩ => ?_⟩
    · -- a period that began by `r` has its old table
      exact ⟨(h_old _ h_le).symm ▸ hf, h_le, h_lt⟩
    · exact ⟨h_old _ h_le ▸ hf, h_le, h_lt⟩
  late_le := h.late_le
  late_by k f hf h_by := by
    have h_begun : periodStart wraps origin k ≤ r :=
      Nat.le_trans (Nat.le_add_right _ _) (Nat.le_trans h_by h.le)
    exact h.late_by k f (h_old _ h_begun ▸ hf) h_by
  length_le := h.length_le
  edges_iff x := by rw [h.edges_iff x, made_congr h.le h_old fun _ _ _ _ => rfl]
  edges_nodup := h.edges_nodup
  edges_order := h.edges_order

omit [PinBank P] [LawfulPinBank P] in
/-- **Waiting.** Time goes on while no period starts and no fall is due. -/
theorem wait (h : Timely wraps origin n late inForce r s e) (h_queue : e'.queue = e.queue)
    (h_edges : e'.edges = e.edges) (h_lag : e'.board.lag = e.board.lag) (h_r : r ≤ r')
    (h_s : s ≤ s') (h_le : s' ≤ r')
    (h_starts : ∀ k, periodStart wraps origin k ≤ r' → periodStart wraps origin k ≤ r)
    (h_dues : ∀ k, ∀ f ∈ (inForce (periodStart wraps origin k)).step.falls,
      periodStart wraps origin k ≤ r → s < periodStart wraps origin k + f.due →
        s' < periodStart wraps origin k + f.due) :
    Timely wraps origin n late inForce r' s' e' := by
  -- what is due by the new `s'` was due by `s`, as no fall comes due in between
  have h_before {k : Nat} {f : Fall}
      (hf : f ∈ (inForce (periodStart wraps origin k)).step.falls)
      (h_by : periodStart wraps origin k + f.due ≤ s') :
      periodStart wraps origin k + f.due ≤ s := by
    have h_begun := h_starts k (Nat.le_trans (Nat.le_add_right _ _) (Nat.le_trans h_by h_le))
    exact Nat.le_of_not_lt fun h_lt => Nat.not_lt_of_le h_by (h_dues k f hf h_begun h_lt)
  refine ⟨h_le, h_queue ▸ h.sorted, h.short, fun f => ?_, h_lag ▸ h.late_le, fun k f hf h_by => ?_,
    h_edges ▸ h.length_le, fun x => ?_, h_edges ▸ h.edges_nodup, h_edges ▸ h.edges_order⟩
  · -- the pending falls are the same
    rw [h_queue, h.pending_iff f]
    refine exists_congr fun k => and_congr_right fun hf => ?_
    constructor
    · rintro ⟨h_begun, h_lt⟩
      exact ⟨Nat.le_trans h_begun h_r, h_dues k f hf h_begun h_lt⟩
    · rintro ⟨h_begun, h_lt⟩
      exact ⟨h_starts k h_begun, Nat.lt_of_le_of_lt h_s h_lt⟩
  · exact Nat.le_trans (h.late_by k f hf (h_before hf h_by)) h_s
  · -- and so are the changes: no rise and no fall is new
    rw [h_edges, h.edges_iff x]
    constructor
    · rintro ⟨k, f, hf, h_x⟩
      refine ⟨k, f, hf, h_x.imp ?_ ?_⟩
      · exact fun ⟨h_eq, h_by⟩ => ⟨h_eq, Nat.le_trans h_by h_r⟩
      · exact fun ⟨h_eq, h_by⟩ => ⟨h_eq, Nat.le_trans h_by h_s⟩
    · rintro ⟨k, f, hf, h_x⟩
      refine ⟨k, f, hf, h_x.imp ?_ ?_⟩
      · exact fun ⟨h_eq, h_by⟩ => ⟨h_eq, h_starts k h_by⟩
      · exact fun ⟨h_eq, h_by⟩ => ⟨h_eq, h_before hf h_by⟩

omit [PinBank P] [LawfulPinBank P] in
/-- Rises at a time after `r` come after all changes so far. -/
theorem rises_append (h : Timely wraps origin n late inForce r s e) {T : Nat} (h_r : r < T)
    {falls : List Fall} (h_pins : (falls.map Fall.pin).Nodup)
    (h_edges : e'.edges = e.edges ++ falls.map fun f => .rise T f.pin) :
    n ≤ e'.edges.length ∧
      e'.edges.drop n = e.edges.drop n ++ (falls.map fun f => .rise T f.pin) ∧
        (e'.edges.drop n).Nodup ∧ (e'.edges.drop n).Pairwise Edge.NotAfter := by
  have h_stamp {y : Edge} (hy : y ∈ falls.map fun f => Edge.rise T f.pin) : y.time? = some T := by
    obtain ⟨f, -, rfl⟩ := List.mem_map.1 hy
    rfl
  have h_nodup : (falls.map fun f => Edge.rise T f.pin).Nodup := by
    have h_map := h_pins.map (f := Edge.rise T) fun _ _ h_eq => (Edge.mk.inj h_eq).2.1
    rwa [List.map_map] at h_map
  refine h.edges_append h_edges h_nodup (List.pairwise_of_forall_mem_list fun x hx y hy =>
    Edge.notAfter_of_le (h_stamp hx) (h_stamp hy) (Nat.le_refl T)) fun x hx y hy => ?_
  obtain ⟨t, h_t, h_by, -⟩ := h.stamp hx
  refine ⟨?_, Edge.notAfter_of_le h_t (h_stamp hy) (by omega)⟩
  -- the changes so far are stamped with `r` at the latest
  rintro rfl
  have h_same : t = T := Option.some.inj (h_t.symm.trans (h_stamp hy))
  omega

omit [PinBank P] [LawfulPinBank P] in
/-- **Beginning a period.** With no fall pending, the pins of the period rise, and its falls are
awaited. -/
theorem begin {k : Nat} (h : Timely wraps origin n late inForce r s e)
    (h_queue : e.queue.events = []) (h_r : r < periodStart wraps origin k)
    (h_starts : ∀ l, periodStart wraps origin l ≤ periodStart wraps origin k →
      periodStart wraps origin l = periodStart wraps origin k ∨ periodStart wraps origin l ≤ r)
    (h_lag : e'.board.lag = e.board.lag) (h_sorted : e'.queue.events.Pairwise (· ≤ ·))
    (h_mem : ∀ f, f ∈ e'.queue.events ↔ f ∈ (inForce (periodStart wraps origin k)).step.falls)
    (h_pins : ((inForce (periodStart wraps origin k)).step.falls.map Fall.pin).Nodup)
    (h_edges : e'.edges = e.edges ++ (inForce (periodStart wraps origin k)).step.falls.map
      fun f => .rise (periodStart wraps origin k) f.pin) :
    Timely wraps origin n late inForce (periodStart wraps origin k) s e' := by
  have h_s := h.le
  obtain ⟨h_length, h_drop, h_once, h_order⟩ := h.rises_append h_r h_pins h_edges
  refine ⟨by omega, h_sorted, h.short, fun f => ?_, h_lag ▸ h.late_le, h.late_by, h_length,
    fun x => ?_, h_once, h_order⟩
  · rw [h_mem]
    constructor
    · -- a fall of the new table is due after its period starts
      exact fun hf => ⟨k, hf, Nat.le_refl _, by omega⟩
    · rintro ⟨l, hf, h_begun, h_lt⟩
      rcases h_starts l h_begun with h_same | h_old
      · exact h_same ▸ hf
      · -- the falls of the periods before are over
        have h_pending := (h.pending_iff f).2 ⟨l, hf, h_old, h_lt⟩
        rw [h_queue] at h_pending
        exact absurd h_pending List.not_mem_nil
  · -- the new changes are the rises of the new period
    rw [h_drop, List.mem_append, h.edges_iff x, List.mem_map]
    constructor
    · rintro (⟨l, f, hf, h_x⟩ | ⟨f, hf, rfl⟩)
      · exact ⟨l, f, hf, h_x.imp_left fun ⟨h_eq, h_by⟩ => ⟨h_eq, by omega⟩⟩
      · exact ⟨k, f, hf, .inl ⟨rfl, Nat.le_refl _⟩⟩
    · rintro ⟨l, f, hf, ⟨rfl, h_by⟩ | ⟨rfl, h_by⟩⟩
      · -- a rise is new if its period starts now
        rcases h_starts l h_by with h_same | h_old
        · exact .inr ⟨f, h_same ▸ hf, by rw [h_same]⟩
        · exact .inl ⟨l, f, hf, .inl ⟨rfl, h_old⟩⟩
      · -- falls are not new: `s` stays
        exact .inl ⟨l, f, hf, .inr ⟨rfl, h_by⟩⟩

/-! ### Settling -/

variable (wraps origin) in
/-- How late the falls are that were just carried out in the period that starts at `T`; of the
others it is known already. -/
theorem exists_late (T : Nat) {lag : Nat} {done : List (Fall × Nat)}
    (h_inj : ∀ d ∈ done, ∀ u ∈ done, d.1.servo = u.1.servo → d = u)
    (h_done : ∀ d ∈ done, T + d.1.due ≤ d.2 ∧ d.2 ≤ T + d.1.due + (lag - 1))
    (h_late : ∀ k servo, late k servo ≤ lag - 1) :
    ∃ late' : Nat → Nat → Nat, (∀ k servo, late' k servo ≤ lag - 1) ∧
      (∀ k servo, (periodStart wraps origin k = T → ∀ d ∈ done, d.1.servo ≠ servo) →
        late' k servo = late k servo) ∧
      ∀ k, periodStart wraps origin k = T → ∀ d ∈ done, T + d.1.due + late' k d.1.servo = d.2 := by
  classical
  refine ⟨fun k servo =>
    if h : periodStart wraps origin k = T ∧ ∃ d ∈ done, d.1.servo = servo then
      h.2.choose.2 - (T + h.2.choose.1.due)
    else late k servo, fun k servo => ?_, fun k servo h_other => ?_, fun k h_k d hd => ?_⟩
  · -- the chosen entry of a servo bounds its lateness
    dsimp only
    split
    · rename_i h_found
      have h_bound := h_done _ h_found.2.choose_spec.1
      omega
    · exact h_late k servo
  · -- no entry, nothing new
    exact dif_neg fun ⟨h_k, d, hd, h_servo⟩ => h_other h_k d hd h_servo
  · have h_found : periodStart wraps origin k = T ∧ ∃ u ∈ done, u.1.servo = d.1.servo :=
      ⟨h_k, d, hd, rfl⟩
    -- the servo has one fall, and it was carried out once
    have h_same : h_found.2.choose = d :=
      h_inj _ h_found.2.choose_spec.1 d hd h_found.2.choose_spec.2
    have h_bound := h_done d hd
    dsimp only
    rw [dif_pos h_found, h_same]
    omega

end Timely

/-- The falls of `done` came due after `s` and were carried out by `now`, each at the time beside
it. They are all that came due by `now`, and `late'` says how late they were; of the falls before
them it says what `late` says. -/
structure Accounts (wraps origin : Nat) (late late' : Nat → Nat → Nat)
    (inForce : Nat → ChannelTable) (s now : Nat) (done : List (Fall × Nat)) : Prop where
  kept : ∀ k, ∀ f ∈ (inForce (periodStart wraps origin k)).step.falls,
    periodStart wraps origin k + f.due ≤ s → late' k f.servo = late k f.servo
  time_eq : ∀ d ∈ done, ∃ k, d.1 ∈ (inForce (periodStart wraps origin k)).step.falls ∧
    periodStart wraps origin k + d.1.due + late' k d.1.servo = d.2
  mem : ∀ k, ∀ f ∈ (inForce (periodStart wraps origin k)).step.falls,
    s < periodStart wraps origin k + f.due → periodStart wraps origin k + f.due ≤ now →
      ∃ d ∈ done, d.1 = f ∧ periodStart wraps origin k + f.due + late' k f.servo = d.2
  le_now : ∀ d ∈ done, d.2 ≤ now

namespace Accounts

variable {now : Nat} {late' : Nat → Nat → Nat} {done : List (Fall × Nat)}

/-- Falls of one period that were carried out less than a lag late can be accounted for. -/
theorem exists_of_done {T lag : Nat} (h_late : ∀ k servo, late k servo ≤ lag - 1)
    (h_pins : (done.map fun d => d.1.pin).Nodup)
    (h_period : ∀ d ∈ done, ∃ k, d.1 ∈ (inForce (periodStart wraps origin k)).step.falls ∧
      periodStart wraps origin k = T ∧ s < T + d.1.due)
    (h_done : ∀ d ∈ done, T + d.1.due ≤ d.2 ∧ d.2 ≤ T + d.1.due + (lag - 1))
    (h_now : ∀ d ∈ done, d.2 ≤ now)
    (h_due : ∀ k, ∀ f ∈ (inForce (periodStart wraps origin k)).step.falls,
      s < periodStart wraps origin k + f.due → periodStart wraps origin k + f.due ≤ now →
        periodStart wraps origin k = T ∧ ∃ d ∈ done, d.1 = f) :
    ∃ late', (∀ k servo, late' k servo ≤ lag - 1) ∧
      Accounts wraps origin late late' inForce s now done := by
  -- in one period a servo has one fall, which is on the list once
  have h_same {k : Nat} {d : Fall × Nat} {f : Fall} (h_k : periodStart wraps origin k = T)
      (hd : d ∈ done) (hf : f ∈ (inForce (periodStart wraps origin k)).step.falls)
      (h_servo : d.1.servo = f.servo) : d.1 = f := by
    obtain ⟨l, h_d, h_l, -⟩ := h_period d hd
    rw [h_l, ← h_k] at h_d
    exact ChannelTable.fall_eq_of_servo h_d hf h_servo
  have h_inj : ∀ d ∈ done, ∀ u ∈ done, d.1.servo = u.1.servo → d = u := by
    intro d hd u hu h_servo
    obtain ⟨k, h_u, h_k, -⟩ := h_period u hu
    exact List.inj_on_of_nodup_map h_pins hd hu (congrArg Fall.pin (h_same h_k hd h_u h_servo))
  obtain ⟨late', h_late', h_other, h_stamp⟩ :=
    Timely.exists_late wraps origin T h_inj h_done h_late
  refine ⟨late', h_late', fun k f hf h_by => ?_, fun d hd => ?_, fun k f hf h_lt h_by => ?_, h_now⟩
  · -- a fall that was due by `s` is not on the list, where all come due after `s`
    refine h_other k f.servo fun h_k d hd h_servo => ?_
    obtain ⟨-, -, -, h_lt⟩ := h_period d hd
    rw [h_same h_k hd hf h_servo, ← h_k] at h_lt
    exact absurd h_by (Nat.not_le_of_lt h_lt)
  · obtain ⟨k, h_d, h_k, -⟩ := h_period d hd
    -- the stamp of an entry is its time
    exact ⟨k, h_d, by rw [h_k, h_stamp k h_k d hd]⟩
  · -- and every fall that came due since has its entry
    obtain ⟨h_k, d, hd, rfl⟩ := h_due k f hf h_lt h_by
    exact ⟨d, hd, rfl, by rw [h_k, h_stamp k h_k d hd]⟩

/-- Every fall that is due by `now` was carried out by `now`. -/
theorem late_by (h : Accounts wraps origin late late' inForce s now done) (h_s : s ≤ now)
    (h_before : ∀ k, ∀ f ∈ (inForce (periodStart wraps origin k)).step.falls,
      periodStart wraps origin k + f.due ≤ s →
        periodStart wraps origin k + f.due + late k f.servo ≤ s) :
    ∀ k, ∀ f ∈ (inForce (periodStart wraps origin k)).step.falls,
      periodStart wraps origin k + f.due ≤ now →
        periodStart wraps origin k + f.due + late' k f.servo ≤ now := by
  intro k f hf h_by
  by_cases h_old : periodStart wraps origin k + f.due ≤ s
  · -- a fall that was due before keeps its lateness
    rw [h.kept k f hf h_old]
    exact Nat.le_trans (h_before k f hf h_old) h_s
  · -- the others were carried out at their entry
    obtain ⟨d, hd, -, h_d⟩ := h.mem k f hf (Nat.lt_of_not_le h_old) h_by
    rw [h_d]
    exact h.le_now d hd

/-- The changes made by `now` are those made before and the falls of the list. -/
theorem made_iff (h : Accounts wraps origin late late' inForce s now done) (h_r : r ≤ now)
    (h_s : s ≤ now)
    (h_starts : ∀ k, periodStart wraps origin k ≤ now → periodStart wraps origin k ≤ r) {x : Edge} :
    Made wraps origin late' inForce now now x ↔
      Made wraps origin late inForce r s x ∨ ∃ d ∈ done, Edge.fall d.2 d.1.pin = x := by
  constructor
  · rintro ⟨k, f, hf, ⟨rfl, h_by⟩ | ⟨rfl, h_by⟩⟩
    · -- no period began since
      exact .inl ⟨k, f, hf, .inl ⟨rfl, h_starts k h_by⟩⟩
    · by_cases h_old : periodStart wraps origin k + f.due ≤ s
      · -- a fall that was due by `s` is an old one
        exact .inl ⟨k, f, hf, .inr ⟨by rw [h.kept k f hf h_old], h_old⟩⟩
      · -- one that came due later is on the list
        obtain ⟨d, hd, rfl, h_d⟩ := h.mem k f hf (Nat.lt_of_not_le h_old) h_by
        exact .inr ⟨d, hd, by rw [h_d]⟩
  · rintro (⟨k, f, hf, ⟨rfl, h_by⟩ | ⟨rfl, h_by⟩⟩ | ⟨d, hd, rfl⟩)
    · exact ⟨k, f, hf, .inl ⟨rfl, Nat.le_trans h_by h_r⟩⟩
    · exact ⟨k, f, hf, .inr ⟨by rw [h.kept k f hf h_by], Nat.le_trans h_by h_s⟩⟩
    · -- an entry is the fall of its period, with the lateness it was carried out with
      obtain ⟨k, hf, h_d⟩ := h.time_eq d hd
      have h_by : periodStart wraps origin k + d.1.due ≤ now :=
        Nat.le_trans (Nat.le_add_right _ _) (h_d.symm ▸ h.le_now d hd)
      exact ⟨k, d.1, hf, .inr ⟨by rw [h_d], h_by⟩⟩

end Accounts

namespace Timely

omit [PinBank P] [LawfulPinBank P] in
/-- Falls that are carried out after the time `r` come after all changes so far. -/
theorem falls_append (h : Timely wraps origin n late inForce r s e) (h_s : s < r)
    {done : List (Fall × Nat)} (h_pins : (done.map fun d => d.1.pin).Nodup)
    (h_order : done.Pairwise (·.2 ≤ ·.2)) (h_r : ∀ d ∈ done, r ≤ d.2)
    (h_edges : e'.edges = e.edges ++ done.map fun d => .fall d.2 d.1.pin) :
    n ≤ e'.edges.length ∧
      e'.edges.drop n = e.edges.drop n ++ (done.map fun d => .fall d.2 d.1.pin) ∧
        (e'.edges.drop n).Nodup ∧ (e'.edges.drop n).Pairwise Edge.NotAfter := by
  -- the pins of the falls are different, and so are the changes
  have h_nodup : (done.map fun d => Edge.fall d.2 d.1.pin).Nodup := by
    refine List.Nodup.of_map Edge.pin ?_
    rwa [List.map_map]
  refine h.edges_append h_edges h_nodup
    (h_order.map _ fun d u h_du => Edge.notAfter_of_le rfl rfl h_du) fun x hx y hy => ?_
  obtain ⟨t, h_t, h_by, h_fall⟩ := h.stamp hx
  obtain ⟨d, hd, rfl⟩ := List.mem_map.1 hy
  refine ⟨?_, Edge.notAfter_of_le h_t rfl (Nat.le_trans h_by (h_r d hd))⟩
  -- the falls so far were carried out by `s`, before `r`
  rintro rfl
  have h_early : d.2 ≤ s := Option.some.inj h_t ▸ h_fall rfl
  exact Nat.not_lt_of_le (Nat.le_trans (h_r d hd) h_early) h_s

section Settle

variable (h : Timely wraps origin n late inForce r s e) (h_e : Settleable e)
  (h_out : CarriedOut e e') (h_ahead : ∀ f ∈ e'.queue.events, e'.seen < f.due)
  (h_now : e.clock.now = r) (h_s : s < r)
  (h_period : ∀ k, ∀ f ∈ (inForce (periodStart wraps origin k)).step.falls,
    periodStart wraps origin k ≤ r → s < periodStart wraps origin k + f.due →
      periodStart wraps origin k + e.seen = r)
  (h_starts : ∀ k, periodStart wraps origin k ≤ e'.clock.now → periodStart wraps origin k ≤ r)

include h h_e h_out h_ahead h_now h_period h_starts

/-- The falls that settling carries out are those of one period that have come due since, each less
than the lag late. -/
theorem exists_accounts_of_settle {done : List (Fall × Nat)}
    (h_split : e.queue.events = done.map Prod.fst ++ e'.queue.events)
    (h_pins : (done.map fun d => d.1.pin).Nodup)
    (h_done : ∀ d ∈ done, r ≤ d.2 ∧ d.2 ≤ e'.clock.now ∧ d.1.due ≤ e.seen + (d.2 - r) ∧
      e.seen + (d.2 - r) ≤ d.1.due + (e.board.lag - 1)) :
    ∃ late', (∀ k servo, late' k servo ≤ e.board.lag - 1) ∧
      Accounts wraps origin late late' inForce s e'.clock.now done := by
  have h_le := h_out.now_le
  have h_seen := h_out.seen_eq h_e
  rw [h_now] at h_le h_seen
  have h_mem {f : Fall} : f ∈ e.queue.events ↔ (∃ d ∈ done, d.1 = f) ∨ f ∈ e'.queue.events := by
    rw [h_split, List.mem_append, List.mem_map]
  -- what was carried out was pending, in the one period that has falls left
  have h_present {d : Fall × Nat} (hd : d ∈ done) :
      ∃ k, d.1 ∈ (inForce (periodStart wraps origin k)).step.falls ∧
        periodStart wraps origin k + e.seen = r ∧ s < periodStart wraps origin k + d.1.due := by
    obtain ⟨k, hf, h_begun, h_lt⟩ := (h.pending_iff d.1).1 (h_mem.2 (.inl ⟨d, hd, rfl⟩))
    exact ⟨k, hf, h_period k _ hf h_begun h_lt, h_lt⟩
  -- the one period is that which starts at the time `r - e.seen`
  refine Accounts.exists_of_done (T := r - e.seen) h.late_le h_pins (fun d hd => ?_)
    (fun d hd => ?_) (fun d hd => (h_done d hd).2.1) fun k f hf h_lt h_by => ?_
  · -- a fall on the list belongs to that period
    obtain ⟨k, hf, h_k, h_lt⟩ := h_present hd
    exact ⟨k, hf, by omega, by omega⟩
  · -- it was carried out when it was due, or late by less than the lag
    obtain ⟨k, -, h_k, -⟩ := h_present hd
    have h_d := h_done d hd
    omega
  · -- a fall that came due since was pending, and so it was carried out or is left
    have h_begun := h_starts k (Nat.le_trans (Nat.le_add_right _ _) h_by)
    have h_k := h_period k f hf h_begun h_lt
    refine ⟨by omega, (h_mem.1 ((h.pending_iff f).2 ⟨k, hf, h_begun, h_lt⟩)).resolve_right ?_⟩
    -- what is left has not come due
    intro h_left
    have h_later := h_ahead f h_left
    omega

include h_s

/-- The falls that settling leaves are those that come due after its end. -/
theorem pending_iff_of_settle (f : Fall) : f ∈ e'.queue.events ↔
    ∃ k, f ∈ (inForce (periodStart wraps origin k)).step.falls ∧
      periodStart wraps origin k ≤ e'.clock.now ∧
        e'.clock.now < periodStart wraps origin k + f.due := by
  have h_le := h_out.now_le
  have h_seen := h_out.seen_eq h_e
  rw [h_now] at h_le h_seen
  constructor
  · -- what is left was pending before and has not come due
    intro hf
    obtain ⟨k, h_f, h_begun, h_lt⟩ := (h.pending_iff f).1 (h_out.mem_of_left hf)
    have h_k := h_period k f h_f h_begun h_lt
    have h_later := h_ahead f hf
    exact ⟨k, h_f, by omega, by omega⟩
  · rintro ⟨k, hf, h_begun, h_lt⟩
    have h_before := h_starts k h_begun
    -- as `s` is past, the fall was pending before as well
    have h_after : s < periodStart wraps origin k + f.due := by omega
    have h_k := h_period k f hf h_before h_after
    obtain ⟨done, h_split, -, -, h_done⟩ := h_out.falls
    have h_pending := (h.pending_iff f).2 ⟨k, hf, h_before, h_after⟩
    rw [h_split, List.mem_append, List.mem_map] at h_pending
    refine h_pending.resolve_left ?_
    -- what was carried out had come due by the end
    rintro ⟨d, hd, rfl⟩
    have h_d := h_done d hd
    omega

/-- **Settling.** The falls that were due by its end are carried out, each less than the lag
late. -/
theorem settle : ∃ late', Timely wraps origin n late' inForce e'.clock.now e'.clock.now e' := by
  have h_le := h_out.now_le
  obtain ⟨done, h_split, h_edges, h_order, h_done⟩ := h_out.falls
  rw [h_now] at h_le h_done
  -- falls for one pin are never pending together
  have h_pins : (done.map fun d => d.1.pin).Nodup := by
    have h_nodup := h_e.tied.pending_nodup
    rw [h_split, List.map_append, List.map_map] at h_nodup
    exact (List.nodup_append.1 h_nodup).1
  obtain ⟨late', h_late', h_accounts⟩ := h.exists_accounts_of_settle h_e h_out h_ahead h_now
    h_period h_starts h_split h_pins h_done
  obtain ⟨h_length, h_drop, h_once, h_ordered⟩ :=
    h.falls_append h_s h_pins h_order (fun d hd => (h_done d hd).1) h_edges
  have h_before : s ≤ e'.clock.now := Nat.le_trans (Nat.le_of_lt h_s) h_le
  refine ⟨late', {
    le := Nat.le_refl _
    sorted := h_out.sorted h_e
    short := h.short
    pending_iff := h.pending_iff_of_settle h_e h_out h_ahead h_now h_s h_period h_starts
    late_le := h_out.lag_eq ▸ h_late'
    late_by := h_accounts.late_by h_before h.late_by
    length_le := h_length
    edges_iff := fun x => ?_
    edges_nodup := h_once
    edges_order := h_ordered }⟩
  -- the changes are the old ones and the falls of the list
  rw [h_drop, List.mem_append, h.edges_iff x, List.mem_map]
  exact (h_accounts.made_iff h_le h_before h_starts).symm

end Settle

end Timely

end Engine

end ServoPulse
