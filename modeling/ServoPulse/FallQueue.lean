import ServoPulse.Fall

/-!
# Pending falls

At most six falls, kept in order, so that the earliest is always the next one armed.
`FallQueue.push` hands a seventh back.

An insertion adds its event and nothing else (`perm_insert`) and keeps the order
(`pairwise_insert`); in order, the first fall is due first (`first_due_le`).
-/

namespace ServoPulse

/-- The falls still pending, earliest first. -/
structure FallQueue where
  events : List Fall := []
  deriving DecidableEq, Inhabited

namespace FallQueue

/-- Puts a fall before the first one that is not earlier. -/
def insert (f : Fall) : List Fall → List Fall
  | [] => [f]
  | g :: rest => if f ≤ g then f :: g :: rest else g :: insert f rest

/-- The number of pending falls. -/
def size (q : FallQueue) : Nat := q.events.length

/-- Whether no fall is pending. -/
def isEmpty (q : FallQueue) : Bool := q.events.isEmpty

/-- The queue with one more fall. A full queue hands the fall back. -/
def push (q : FallQueue) (f : Fall) : Except Fall FallQueue :=
  if q.size < maxServos then .ok ⟨insert f q.events⟩ else .error f

/-- The earliest pending fall. -/
def peek? (q : FallQueue) : Option Fall := q.events.head?

/-- The earliest pending fall and the queue without it. -/
def pop? (q : FallQueue) : Option (Fall × FallQueue) :=
  match q.events with
  | [] => none
  | f :: rest => some (f, ⟨rest⟩)

/-- The earliest pending fall and the queue without it, if it is due by `now`. -/
def popDue? (q : FallQueue) (now : Nat) : Option (Fall × FallQueue) :=
  match q.events with
  | [] => none
  | f :: rest => if f.due ≤ now then some (f, ⟨rest⟩) else none

/-! ### Order -/

theorem perm_insert (f : Fall) (events : List Fall) :
    (insert f events).Perm (f :: events) := by
  induction events with
  | nil => exact .refl _
  | cons g rest ih =>
    unfold insert
    split
    · exact .refl _
    · exact (ih.cons g).trans (.swap f g rest)

@[simp] theorem mem_insert {f g : Fall} {events : List Fall} :
    g ∈ insert f events ↔ g = f ∨ g ∈ events := by
  rw [(perm_insert f events).mem_iff, List.mem_cons]

@[simp] theorem length_insert (f : Fall) (events : List Fall) :
    (insert f events).length = events.length + 1 :=
  (perm_insert f events).length_eq

theorem pairwise_insert {f : Fall} {events : List Fall}
    (h : events.Pairwise (· ≤ ·)) : (insert f events).Pairwise (· ≤ ·) := by
  induction events with
  | nil => simp [insert]
  | cons g rest ih =>
    obtain ⟨hg, hrest⟩ := List.pairwise_cons.1 h
    unfold insert
    split
    · rename_i hfg
      refine List.pairwise_cons.2 ⟨fun x hx => ?_, h⟩
      rcases List.mem_cons.1 hx with rfl | hx
      · exact hfg
      · exact Fall.le_trans hfg (hg x hx)
    · rename_i hfg
      have hgf : g ≤ f := (Fall.le_total g f).resolve_right hfg
      refine List.pairwise_cons.2 ⟨fun x hx => ?_, ih hrest⟩
      rcases mem_insert.1 hx with rfl | hx
      · exact hgf
      · exact hg x hx

/-- The first fall in order is not due after the others. -/
theorem first_due_le {f g : Fall} {rest : List Fall} (h : (f :: rest).Pairwise (· ≤ ·))
    (hg : g ∈ f :: rest) : f.due ≤ g.due := by
  rcases List.mem_cons.1 hg with rfl | hg
  · exact Nat.le_refl _
  · exact Fall.due_le_of_le (List.rel_of_pairwise_cons h hg)

end FallQueue

end ServoPulse
