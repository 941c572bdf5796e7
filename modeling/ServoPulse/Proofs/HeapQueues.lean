import Mathlib.Data.List.Basic
import ServoPulse.FallQueue

/-!
# Queues on heaps

A queue of falls may be kept in any bounded heap (`FallHeap`). All that is asked of the heap is
that it keeps its falls and yields a least one (`LawfulFallHeap`). In which order it holds them,
and which of two equal falls it yields, is its own affair.

Such a queue (`HeapQueue`) is called side by side with a sorted list of at most six falls
(`SortedFalls`), and so is the queue of this library (`FallQueue`). Both answer every call as the
list does and always have its size (`answers_eq_sorted`). What carries this is that the order of
falls is antisymmetric. Two least falls are the same fall, so that a permutation is all that has to
be known of the heap (`HeapQueue.follows`), and two sorted lists with the same falls are the same
list (`FallQueue.follows`).

Taking falls off as long as one is due (`Drains`) then takes off the falls of the list that are due,
in the order of the list, and leaves the others.
-/

namespace ServoPulse

/-! ### Calls -/

/-- What a queue of falls is asked. -/
inductive QueueCall where
  | push (f : Fall)
  | peek
  | pop
  | popDue (now : Nat)
  | clear

/-- What is called as a queue of falls. -/
class Queue (Q : Type) where
  /-- A queue without falls. -/
  empty : Q
  /-- The answer to a call, and the queue after it. To a push, the answer is the fall that found no
  room, if it found none; to all others it is the fall that was found. -/
  call : QueueCall → Q → Option Fall × Q
  /-- The number of falls. -/
  size : Q → Nat

namespace Queue

variable {Q : Type} [Queue Q]

/-- The queue after a list of calls. -/
def after (calls : List QueueCall) (q : Q) : Q :=
  calls.foldl (fun q c => (call c q).2) q

/-- The answers to a list of calls, each with the size of the queue after it. -/
def answers : List QueueCall → Q → List (Option Fall × Nat)
  | [], _ => []
  | c :: calls, q =>
    ((call c q).1, size (call c q).2) :: answers calls (call c q).2

/-- Taking falls off as long as one is due by `now` takes off the falls in the list, in its order,
and ends with the queue `q'`. -/
inductive Drains (now : Nat) : Q → List Fall → Q → Prop where
  | done {q : Q} (h_none : (call (.popDue now) q).1 = none) :
      Drains now q [] (call (.popDue now) q).2
  | next {q q' : Q} {f : Fall} {fs : List Fall} (h_some : (call (.popDue now) q).1 = some f)
      (h_rest : Drains now (call (.popDue now) q).2 fs q') : Drains now q (f :: fs) q'

/-- There is only one way to take falls off as long as one is due. -/
theorem Drains.unique {now : Nat} {q q₁ q₂ : Q} {fs₁ fs₂ : List Fall}
    (h₁ : Drains now q fs₁ q₁) (h₂ : Drains now q fs₂ q₂) : fs₁ = fs₂ ∧ q₁ = q₂ := by
  -- induction on the one drain, with the same answer at each call of the other
  induction h₁ generalizing fs₂ with
  | done h_none =>
    -- the first call answered none, so the other drain is over as well
    cases h₂ with
    | done => exact ⟨rfl, rfl⟩
    | next h_some => cases h_none.symm.trans h_some
  | next h_some _ ih =>
    -- both answers are the same fall
    cases h₂ with
    | done h_none => cases h_none.symm.trans h_some
    | next h_some' h_rest =>
      obtain ⟨rfl, rfl⟩ := ih h_rest
      obtain rfl := Option.some.inj (h_some.symm.trans h_some')
      exact ⟨rfl, rfl⟩

end Queue

/-! ### The sorted list -/

/-- Falls in ascending order, no more than there are servos. -/
structure SortedFalls where
  falls : List Fall
  sorted : falls.Pairwise (· ≤ ·)
  length_le : falls.length ≤ maxServos

namespace SortedFalls

theorem pairwise_mergeSort (falls : List Fall) : falls.mergeSort.Pairwise (· ≤ ·) := by
  have h_sorted : falls.mergeSort.Pairwise fun a b => decide (a ≤ b) = true := by
    apply List.pairwise_mergeSort
    · intro a b c h_ab h_bc
      exact decide_eq_true (Fall.le_trans (of_decide_eq_true h_ab) (of_decide_eq_true h_bc))
    · intro a b
      simpa using Fall.le_total a b
  exact h_sorted.imp of_decide_eq_true

/-- Lists in ascending order with the same falls are the same. -/
theorem eq_of_perm {l l' : List Fall} (h_sorted : l.Pairwise (· ≤ ·))
    (h_sorted' : l'.Pairwise (· ≤ ·)) (h_perm : l.Perm l') : l = l' :=
  List.Perm.eq_of_pairwise (fun _ _ _ _ => Fall.le_antisymm) h_sorted h_sorted' h_perm

/-- The list without falls. -/
def none : SortedFalls := ⟨[], .nil, Nat.zero_le _⟩

/-- One more fall, unless there are six: then the fall comes back and nothing changes. -/
def push (f : Fall) (l : SortedFalls) : Option Fall × SortedFalls :=
  if h_room : l.falls.length < maxServos then
    (.none,
      { falls := (f :: l.falls).mergeSort
        sorted := pairwise_mergeSort _
        length_le := by
          -- the new fall takes a place that was free
          rw [List.length_mergeSort, List.length_cons]
          exact h_room })
  else (some f, l)

/-- The least fall, which is taken off. -/
def pop (l : SortedFalls) : Option Fall × SortedFalls :=
  (l.falls.head?,
    { falls := l.falls.tail
      sorted := l.sorted.tail
      length_le := Nat.le_trans (by simp) l.length_le })

/-- The least fall, which is taken off if it is due. -/
def popDue (now : Nat) (l : SortedFalls) : Option Fall × SortedFalls :=
  if l.falls.head?.any (·.due ≤ now) then l.pop else (.none, l)

instance : Queue SortedFalls where
  empty := none
  call
    | .push f, l => l.push f
    | .peek, l => (l.falls.head?, l)
    | .pop, l => l.pop
    | .popDue now, l => l.popDue now
    | .clear, _ => (.none, none)
  size l := l.falls.length

/-- The falls that are due stand before the others. -/
theorem drains (now : Nat) (l : SortedFalls) :
    ∃ l' : SortedFalls, Queue.Drains now l (l.falls.filter (·.due ≤ now)) l' ∧
      l'.falls = l.falls.filter (now < ·.due) := by
  obtain ⟨falls, h_sorted, h_length⟩ := l
  induction falls with
  | nil => exact ⟨_, .done rfl, rfl⟩
  | cons f rest ih =>
    -- due, the first fall is taken, and the rest is drained in turn
    by_cases h_due : f.due ≤ now
    · have h_pop : popDue now ⟨f :: rest, h_sorted, h_length⟩ =
          (some f, ⟨rest, h_sorted.tail, Nat.le_of_succ_le h_length⟩) :=
        if_pos (decide_eq_true h_due)
      obtain ⟨l', h_drains, h_left⟩ := ih h_sorted.tail (Nat.le_of_succ_le h_length)
      have h_first : (f :: rest).filter (·.due ≤ now) = f :: rest.filter (·.due ≤ now) :=
        List.filter_cons_of_pos (decide_eq_true h_due)
      refine ⟨l', ?_, ?_⟩
      · dsimp only
        rw [h_first]
        -- the call answers the fall that the filter keeps
        refine .next (congrArg Prod.fst h_pop) ?_
        change Queue.Drains now (popDue now _).2 _ l'
        rw [h_pop]
        exact h_drains
      · -- what is left over is left over by the rest
        rw [h_left, List.filter_cons_of_neg (by simpa using h_due)]
    · have h_pop : popDue now ⟨f :: rest, h_sorted, h_length⟩ =
          (.none, ⟨f :: rest, h_sorted, h_length⟩) :=
        if_neg (by simpa using h_due)
      -- no fall is due before the first one
      have h_late : ∀ g ∈ f :: rest, now < g.due := fun g h_g =>
        Nat.lt_of_lt_of_le (Nat.lt_of_not_le h_due) (FallQueue.first_due_le h_sorted h_g)
      have h_done : Queue.Drains now ⟨f :: rest, h_sorted, h_length⟩ []
          (popDue now ⟨f :: rest, h_sorted, h_length⟩).2 :=
        .done (congrArg Prod.fst h_pop)
      have h_none : (f :: rest).filter (·.due ≤ now) = [] :=
        List.filter_eq_nil_iff.2 fun g h_g => by simpa using h_late g h_g
      have h_all : (f :: rest).filter (now < ·.due) = f :: rest :=
        List.filter_eq_self.2 fun g h_g => decide_eq_true (h_late g h_g)
      rw [h_pop] at h_done
      exact ⟨_, h_none.symm ▸ h_done, h_all.symm⟩

end SortedFalls

/-! ### Queues that answer like the list -/

section Following

variable {Q : Type} [Queue Q] {R : Q → SortedFalls → Prop} {q : Q} {l : SortedFalls}

/-- Queues related to a list have its size, answer each call as it does, and stay related to it. -/
structure Follows (R : Q → SortedFalls → Prop) : Prop where
  empty : R Queue.empty .none
  size_eq {q : Q} {l : SortedFalls} (h_rel : R q l) : Queue.size q = l.falls.length
  call (c : QueueCall) {q : Q} {l : SortedFalls} (h_rel : R q l) :
    (Queue.call c q).1 = (Queue.call c l).1 ∧ R (Queue.call c q).2 (Queue.call c l).2

namespace Follows

theorem after (h : Follows R) (calls : List QueueCall) (h_rel : R q l) :
    R (Queue.after calls q) (Queue.after calls l) := by
  induction calls generalizing q l with
  | nil => exact h_rel
  | cons c calls ih => exact ih (h.call c h_rel).2

theorem answers_eq (h : Follows R) (calls : List QueueCall) (h_rel : R q l) :
    Queue.answers calls q = Queue.answers calls l := by
  induction calls generalizing q l with
  | nil => rfl
  | cons c calls ih =>
    -- one call answers the same and leaves related queues, so the induction goes on from those
    obtain ⟨h_answer, h_rel'⟩ := h.call c h_rel
    have h_size : Queue.size (Queue.call c q).2 = Queue.size (Queue.call c l).2 :=
      h.size_eq h_rel'
    unfold Queue.answers
    rw [h_answer, h_size, ih h_rel']

/-- Where falls are taken off the list, the same falls are taken off the queue. -/
theorem drains (h : Follows R) {now : Nat} {fs : List Fall} {l' : SortedFalls}
    (h_drains : Queue.Drains now l fs l') (h_rel : R q l) :
    ∃ q', Queue.Drains now q fs q' ∧ R q' l' := by
  -- induction on the drain of the list, which the other queue follows call by call
  induction h_drains generalizing q with
  | done h_none =>
    obtain ⟨h_answer, h_rel'⟩ := h.call (.popDue now) h_rel
    exact ⟨_, .done (h_answer.trans h_none), h_rel'⟩
  | next h_some _ ih =>
    obtain ⟨h_answer, h_rel'⟩ := h.call (.popDue now) h_rel
    obtain ⟨q', h_rest, h_end⟩ := ih h_rel'
    exact ⟨q', .next (h_answer.trans h_some) h_rest, h_end⟩

/-- After any calls, taking falls off as long as one is due has one outcome. -/
theorem drains_after (h : Follows R) (calls : List QueueCall) (now : Nat) :
    ∃ (q' : Q) (l' : SortedFalls), R q' l' ∧
      l'.falls = (Queue.after calls SortedFalls.none).falls.filter (now < ·.due) ∧
      ∀ (fs : List Fall) (q'' : Q), Queue.Drains now (Queue.after calls Queue.empty) fs q'' ↔
        fs = (Queue.after calls SortedFalls.none).falls.filter (·.due ≤ now) ∧ q'' = q' := by
  obtain ⟨l', h_list, h_left⟩ := (Queue.after calls SortedFalls.none).drains now
  -- the list has a drain, and the queue follows it
  obtain ⟨q', h_drains, h_rel⟩ := h.drains h_list (h.after calls h.empty)
  -- a drain is unique, so every other one of the queue is this one
  refine ⟨q', l', h_rel, h_left, fun fs q'' => ⟨fun h_other => h_other.unique h_drains, ?_⟩⟩
  rintro ⟨rfl, rfl⟩
  exact h_drains

end Follows

end Following

/-! ### Heaps -/

/-- A heap of falls that has room for as many as there are servos. -/
class FallHeap (H : Type) where
  empty : H
  /-- Puts a fall on the heap. A full heap hands it back. -/
  push : Fall → H → Except Fall Unit × H
  peek? : H → Option Fall
  pop? : H → Option Fall × H
  clear : H → H
  size : H → Nat

/-- Whether a fall is on the list and none on it is less. -/
def Fall.IsLeast (f : Fall) (falls : List Fall) : Prop :=
  f ∈ falls ∧ ∀ g ∈ falls, f ≤ g

/-- A heap that keeps its falls and yields a least one. -/
class LawfulFallHeap (H : Type) [FallHeap H] where
  /-- The falls on the heap, in no particular order. -/
  contents : H → List Fall
  contents_empty : contents FallHeap.empty = []
  push_of_room (f : Fall) {h : H} (h_room : (contents h).length < maxServos) :
    (FallHeap.push f h).1 = .ok () ∧ (contents (FallHeap.push f h).2).Perm (f :: contents h)
  push_of_full (f : Fall) {h : H} (h_full : maxServos ≤ (contents h).length) :
    (FallHeap.push f h).1 = .error f ∧ (contents (FallHeap.push f h).2).Perm (contents h)
  peek_of_empty {h : H} (h_nil : contents h = []) : FallHeap.peek? h = none
  peek_of_ne {h : H} (h_ne : contents h ≠ []) :
    ∃ f, FallHeap.peek? h = some f ∧ f.IsLeast (contents h)
  pop_of_empty {h : H} (h_nil : contents h = []) :
    (FallHeap.pop? h).1 = none ∧ contents (FallHeap.pop? h).2 = []
  pop_of_ne {h : H} (h_ne : contents h ≠ []) :
    ∃ f, (FallHeap.pop? h).1 = some f ∧ f.IsLeast (contents h) ∧
      (contents h).Perm (f :: contents (FallHeap.pop? h).2)
  contents_clear (h : H) : contents (FallHeap.clear h) = []
  size_eq (h : H) : FallHeap.size h = (contents h).length

/-- A queue of falls that are kept in a heap. -/
structure HeapQueue (H : Type) where
  heap : H

namespace HeapQueue

variable {H : Type} [FallHeap H]

/-- Puts a fall on the heap. The answer is the fall if it found no room. -/
def push (f : Fall) (q : HeapQueue H) : Option Fall × HeapQueue H :=
  match FallHeap.push f q.heap with
  | (.ok (), heap) => (none, ⟨heap⟩)
  | (.error f, heap) => (some f, ⟨heap⟩)

/-- Takes the least fall off the heap. -/
def pop (q : HeapQueue H) : Option Fall × HeapQueue H :=
  ((FallHeap.pop? q.heap).1, ⟨(FallHeap.pop? q.heap).2⟩)

/-- Looks at the least fall, and takes it off the heap if it is due. -/
def popDue (now : Nat) (q : HeapQueue H) : Option Fall × HeapQueue H :=
  match FallHeap.peek? q.heap with
  | some f => if f.due ≤ now then q.pop else (none, q)
  | none => (none, q)

instance : Queue (HeapQueue H) where
  empty := ⟨FallHeap.empty⟩
  call
    | .push f, q => q.push f
    | .peek, q => (FallHeap.peek? q.heap, q)
    | .pop, q => q.pop
    | .popDue now, q => q.popDue now
    | .clear, q => (none, ⟨FallHeap.clear q.heap⟩)
  size q := FallHeap.size q.heap

variable [LawfulFallHeap H] {q : HeapQueue H} {l : SortedFalls}

/-- The falls on the heap, in no particular order. -/
def contents (q : HeapQueue H) : List Fall := LawfulFallHeap.contents q.heap

/-- The first fall of the list is the only least fall on the heap. -/
theorem head?_eq_of_isLeast {f : Fall} (h_rel : q.contents.Perm l.falls)
    (h_least : f.IsLeast q.contents) : ∃ rest, l.falls = f :: rest := by
  obtain ⟨h_mem, h_le⟩ := h_least
  -- the least entry of the heap is somewhere in the list, and the first of the list is least there
  have h_mem' : f ∈ l.falls := h_rel.mem_iff.1 h_mem
  obtain ⟨g, rest, h_cons⟩ := List.exists_cons_of_ne_nil (List.ne_nil_of_mem h_mem')
  -- each is below the other, and the order is antisymmetric
  have h_fg : f ≤ g := h_le g (h_rel.mem_iff.2 (h_cons ▸ List.mem_cons_self))
  have h_gf : g ≤ f := by
    rw [h_cons] at h_mem'
    rcases List.mem_cons.1 h_mem' with rfl | h_rest
    · exact Fall.le_refl _
    · exact List.rel_of_pairwise_cons (h_cons ▸ l.sorted) h_rest
  obtain rfl := Fall.le_antisymm h_fg h_gf
  exact ⟨rest, h_cons⟩

theorem contents_eq_nil_iff (h_rel : q.contents.Perm l.falls) :
    q.contents = [] ↔ l.falls = [] := by
  rw [← List.length_eq_zero_iff, h_rel.length_eq, List.length_eq_zero_iff]

theorem peek?_eq (h_rel : q.contents.Perm l.falls) :
    FallHeap.peek? q.heap = l.falls.head? := by
  by_cases h_nil : q.contents = []
  · rw [LawfulFallHeap.peek_of_empty h_nil, (contents_eq_nil_iff h_rel).1 h_nil, List.head?_nil]
  · obtain ⟨f, h_peek, h_least⟩ := LawfulFallHeap.peek_of_ne h_nil
    obtain ⟨rest, h_cons⟩ := head?_eq_of_isLeast h_rel h_least
    rw [h_peek, h_cons, List.head?_cons]

theorem pop_follows (h_rel : q.contents.Perm l.falls) :
    q.pop.1 = l.pop.1 ∧ q.pop.2.contents.Perm l.pop.2.falls := by
  -- an empty heap gives nothing and stays empty
  by_cases h_nil : q.contents = []
  · obtain ⟨h_none, h_still⟩ := LawfulFallHeap.pop_of_empty h_nil
    have h_falls : l.falls = [] := (contents_eq_nil_iff h_rel).1 h_nil
    constructor
    · refine h_none.trans ?_
      change none = l.falls.head?
      rw [h_falls, List.head?_nil]
    · change (LawfulFallHeap.contents (FallHeap.pop? q.heap).2).Perm l.falls.tail
      rw [h_still, h_falls, List.tail_nil]
  · -- a heap with entries gives its least one, which is the first of the list
    obtain ⟨f, h_some, h_least, h_perm⟩ := LawfulFallHeap.pop_of_ne h_nil
    obtain ⟨rest, h_cons⟩ := head?_eq_of_isLeast h_rel h_least
    constructor
    · refine h_some.trans ?_
      change some f = l.falls.head?
      rw [h_cons, List.head?_cons]
    · -- what is left is the same without that entry
      change (LawfulFallHeap.contents (FallHeap.pop? q.heap).2).Perm l.falls.tail
      rw [h_cons, List.tail_cons]
      exact List.Perm.cons_inv (h_perm.symm.trans (h_cons ▸ h_rel))

theorem push_follows (f : Fall) (h_rel : q.contents.Perm l.falls) :
    (q.push f).1 = (l.push f).1 ∧ (q.push f).2.contents.Perm (l.push f).2.falls := by
  unfold push SortedFalls.push
  -- the list is sorted again, the heap keeps the entries in its own order
  by_cases h_room : l.falls.length < maxServos
  · obtain ⟨h_ok, h_perm⟩ := LawfulFallHeap.push_of_room f (h := q.heap)
      (h_rel.length_eq ▸ h_room)
    have h_push : FallHeap.push f q.heap = (.ok (), (FallHeap.push f q.heap).2) :=
      Prod.ext h_ok rfl
    rw [dif_pos h_room, h_push]
    refine ⟨rfl, h_perm.trans ((h_rel.cons f).trans ?_)⟩
    exact (List.mergeSort_perm _ _).symm
  · -- at the limit both refuse the fall and are as they were
    obtain ⟨h_error, h_perm⟩ := LawfulFallHeap.push_of_full f (h := q.heap)
      (h_rel.length_eq ▸ Nat.le_of_not_lt h_room)
    have h_push : FallHeap.push f q.heap = (.error f, (FallHeap.push f q.heap).2) :=
      Prod.ext h_error rfl
    rw [dif_neg h_room, h_push]
    exact ⟨rfl, h_perm.trans h_rel⟩

theorem popDue_follows (now : Nat) (h_rel : q.contents.Perm l.falls) :
    (q.popDue now).1 = (l.popDue now).1 ∧
      (q.popDue now).2.contents.Perm (l.popDue now).2.falls := by
  unfold popDue SortedFalls.popDue
  rw [peek?_eq h_rel]
  cases l.falls.head? with
  | none =>
    -- nothing is first, so nothing is due
    exact ⟨rfl, h_rel⟩
  | some f =>
    -- due or not is asked of the same fall
    by_cases h_due : f.due ≤ now
    · simp only [h_due, Option.any_some, decide_true, ↓reduceIte]
      exact pop_follows h_rel
    · simp only [h_due, Option.any_some, decide_false, Bool.false_eq_true, ↓reduceIte]
      exact ⟨trivial, h_rel⟩

theorem follows : Follows fun (q : HeapQueue H) (l : SortedFalls) => q.contents.Perm l.falls where
  empty := by
    change (LawfulFallHeap.contents (FallHeap.empty : H)).Perm []
    rw [LawfulFallHeap.contents_empty]
  size_eq {q l} h_rel := (LawfulFallHeap.size_eq q.heap).trans h_rel.length_eq
  -- one case for each call, by the lemma for that call
  call c q l h_rel := by
    cases c with
    | push f => exact push_follows f h_rel
    | peek => exact ⟨peek?_eq h_rel, h_rel⟩
    | pop => exact pop_follows h_rel
    | popDue now => exact popDue_follows now h_rel
    | clear =>
      -- both are empty now
      refine ⟨rfl, ?_⟩
      change (LawfulFallHeap.contents (FallHeap.clear q.heap)).Perm []
      rw [LawfulFallHeap.contents_clear]

end HeapQueue

/-! ### The queue of this library -/

namespace FallQueue

/-- The answer to a push, and the queue after it. -/
def pushed (q : FallQueue) : Except Fall FallQueue → Option Fall × FallQueue
  | .ok q' => (none, q')
  | .error f => (some f, q)

/-- The fall that was taken off, if one was, and the queue after that. -/
def taken (q : FallQueue) : Option (Fall × FallQueue) → Option Fall × FallQueue
  | some (f, q') => (some f, q')
  | none => (none, q)

instance : Queue FallQueue where
  empty := {}
  call
    | .push f, q => q.pushed (q.push f)
    | .peek, q => (q.peek?, q)
    | .pop, q => q.taken q.pop?
    | .popDue now, q => q.taken (q.popDue? now)
    | .clear, _ => (none, {})
  size := FallQueue.size

/-- Putting a fall in its place is sorting. -/
theorem insert_eq_mergeSort (f : Fall) {falls : List Fall} (h_sorted : falls.Pairwise (· ≤ ·)) :
    insert f falls = (f :: falls).mergeSort :=
  SortedFalls.eq_of_perm (pairwise_insert h_sorted) (SortedFalls.pairwise_mergeSort _)
    ((perm_insert f falls).trans (List.mergeSort_perm _ _).symm)

theorem push_follows (f : Fall) (l : SortedFalls) :
    (pushed ⟨l.falls⟩ (push ⟨l.falls⟩ f)).1 = (l.push f).1 ∧
      (pushed ⟨l.falls⟩ (push ⟨l.falls⟩ f)).2.events = (l.push f).2.falls := by
  unfold push SortedFalls.push
  -- the fall is put in its place, which is where sorting would put it
  by_cases h_room : l.falls.length < maxServos
  · rw [if_pos (show size ⟨l.falls⟩ < maxServos from h_room), dif_pos h_room]
    exact ⟨rfl, insert_eq_mergeSort f l.sorted⟩
  · rw [if_neg (show ¬ size ⟨l.falls⟩ < maxServos from h_room), dif_neg h_room]
    exact ⟨rfl, rfl⟩

theorem pop_follows (l : SortedFalls) :
    (taken ⟨l.falls⟩ (pop? ⟨l.falls⟩)).1 = l.pop.1 ∧
      (taken ⟨l.falls⟩ (pop? ⟨l.falls⟩)).2.events = l.pop.2.falls := by
  obtain ⟨_ | ⟨f, rest⟩, h_sorted, h_length⟩ := l
  · exact ⟨rfl, rfl⟩
  · exact ⟨rfl, rfl⟩

/-- A fall is taken off if it is due, by looking at it first. -/
theorem popDue?_eq (q : FallQueue) (now : Nat) :
    q.popDue? now = if q.peek?.any (·.due ≤ now) then q.pop? else none := by
  obtain ⟨_ | ⟨f, rest⟩⟩ := q
  · rfl
  · simp only [popDue?, peek?, pop?, List.head?_cons, Option.any_some, decide_eq_true_eq]

theorem popDue_follows (now : Nat) (l : SortedFalls) :
    (taken ⟨l.falls⟩ (popDue? ⟨l.falls⟩ now)).1 = (l.popDue now).1 ∧
      (taken ⟨l.falls⟩ (popDue? ⟨l.falls⟩ now)).2.events = (l.popDue now).2.falls := by
  rw [popDue?_eq]
  unfold SortedFalls.popDue
  -- the first fall decides here too
  by_cases h_due : l.falls.head?.any (·.due ≤ now) = true
  · rw [if_pos (show (peek? ⟨l.falls⟩).any (·.due ≤ now) = true from h_due), if_pos h_due]
    exact pop_follows l
  · rw [if_neg (show ¬ (peek? ⟨l.falls⟩).any (·.due ≤ now) = true from h_due), if_neg h_due]
    exact ⟨rfl, rfl⟩

theorem follows : Follows fun (q : FallQueue) (l : SortedFalls) => q.events = l.falls where
  empty := rfl
  size_eq h_rel := congrArg List.length h_rel
  call c q l h_rel := by
    -- the queue holds the very list, so the calls are compared on that
    obtain rfl : q = ⟨l.falls⟩ := congrArg FallQueue.mk h_rel
    cases c with
    | push f => exact push_follows f l
    | peek => exact ⟨rfl, rfl⟩
    | pop => exact pop_follows l
    | popDue now => exact popDue_follows now l
    | clear => exact ⟨rfl, rfl⟩

end FallQueue

/-- **Queues on heaps.** Whatever is asked of a new queue on a heap, and in whatever order, it
answers as the sorted list does and has its size, and its falls are those of the list; the queue of
this library even has them in the order of the list. As long as a fall is due by `now` it can be
taken off, which ends, with exactly the due falls taken off, in the order of the list, and exactly
the others left. -/
theorem answers_eq_sorted {H : Type} [FallHeap H] [LawfulFallHeap H] (calls : List QueueCall)
    (now : Nat) :
    let list := Queue.after calls SortedFalls.none
    let onHeap : HeapQueue H := Queue.after calls Queue.empty
    let queue : FallQueue := Queue.after calls Queue.empty
    Queue.answers calls (Queue.empty : HeapQueue H) = Queue.answers calls SortedFalls.none ∧
    Queue.answers calls (Queue.empty : FallQueue) = Queue.answers calls SortedFalls.none ∧
    onHeap.contents.Perm list.falls ∧ queue.events = list.falls ∧
    (∃ q' : HeapQueue H, q'.contents.Perm (list.falls.filter (now < ·.due)) ∧
      ∀ fs q'', Queue.Drains now onHeap fs q'' ↔
        fs = list.falls.filter (·.due ≤ now) ∧ q'' = q') ∧
    ∀ fs q'', Queue.Drains now queue fs q'' ↔
      fs = list.falls.filter (·.due ≤ now) ∧ q'' = ⟨list.falls.filter (now < ·.due)⟩ := by
  have h_heap := HeapQueue.follows (H := H)
  have h_queue := FallQueue.follows
  -- the two queues follow the list by different relations, but answer alike
  obtain ⟨q', l', h_rel, h_left, h_heapDrains⟩ := h_heap.drains_after calls now
  obtain ⟨⟨events⟩, l'', h_events, h_left', h_queueDrains⟩ := h_queue.drains_after calls now
  obtain rfl : events = _ := h_events.trans h_left'
  exact ⟨h_heap.answers_eq calls h_heap.empty, h_queue.answers_eq calls h_queue.empty,
    h_heap.after calls h_heap.empty, h_queue.after calls h_queue.empty,
    ⟨q', h_left ▸ h_rel, h_heapDrains⟩, h_queueDrains⟩

/-! ### A bag as a heap -/

/-- Falls in the order in which they came. -/
structure FallBag where
  falls : List Fall

namespace FallBag

/-- The least fall, searched from the end. -/
def least? : List Fall → Option Fall
  | [] => none
  | f :: rest =>
    match least? rest with
    | none => some f
    | some g => if f ≤ g then some f else some g

theorem exists_least {falls : List Fall} (h_ne : falls ≠ []) :
    ∃ f, least? falls = some f ∧ f.IsLeast falls := by
  -- induction on the bag: the least of the rest is compared with the first entry
  induction falls with
  | nil => exact absurd rfl h_ne
  | cons f rest ih =>
    unfold least?
    by_cases h_nil : rest = []
    · subst h_nil
      exact ⟨f, rfl, List.mem_singleton_self f, fun g h_g => by
        rw [List.mem_singleton.1 h_g]
        exact Fall.le_refl f⟩
    · -- the least of two entries is least of both parts
      obtain ⟨g, h_g, h_mem, h_le⟩ := ih h_nil
      rw [h_g]
      by_cases h_fg : f ≤ g
      · refine ⟨f, if_pos h_fg, List.mem_cons_self, List.forall_mem_cons.2 ⟨Fall.le_refl f, ?_⟩⟩
        exact fun x h_x => Fall.le_trans h_fg (h_le x h_x)
      · refine ⟨g, if_neg h_fg, List.mem_cons_of_mem _ h_mem, List.forall_mem_cons.2 ⟨?_, h_le⟩⟩
        exact (Fall.le_total f g).resolve_left h_fg

instance : FallHeap FallBag where
  empty := ⟨[]⟩
  push f b := if b.falls.length < maxServos then (.ok (), ⟨f :: b.falls⟩) else (.error f, b)
  peek? b := least? b.falls
  pop? b :=
    match least? b.falls with
    | some f => (some f, ⟨b.falls.erase f⟩)
    | none => (none, b)
  clear _ := ⟨[]⟩
  size b := b.falls.length

instance : LawfulFallHeap FallBag where
  contents := falls
  contents_empty := rfl
  -- the bag keeps its entries in any order, with a limit on their number
  push_of_room f b h_room := by
    simp only [FallHeap.push, h_room, ↓reduceIte]
    exact ⟨trivial, .refl _⟩
  push_of_full f b h_full := by
    simp only [FallHeap.push, Nat.not_lt.2 h_full, ↓reduceIte]
    exact ⟨trivial, .refl _⟩
  peek_of_empty h_nil := congrArg least? h_nil
  peek_of_ne h_ne := exists_least h_ne
  pop_of_empty {b} h_nil := by
    have h_none : least? b.falls = none := congrArg least? h_nil
    simp only [FallHeap.pop?, h_none]
    exact ⟨trivial, h_nil⟩
  pop_of_ne {b} h_ne := by
    obtain ⟨f, h_some, h_least⟩ := exists_least h_ne
    simp only [FallHeap.pop?, h_some]
    exact ⟨f, rfl, h_least, List.perm_cons_erase h_least.1⟩
  contents_clear _ := rfl
  size_eq _ := rfl

end FallBag

/-- Three falls in a bag, two of them at the same time. None is due at 99; by 150 the two are taken
off, that of the servo with the lower number first, and the third is left. -/
theorem answers_eq_sorted_bag :
    let calls : List QueueCall :=
      [.push ⟨200, 1, 3⟩, .push ⟨100, 2, 4⟩, .push ⟨100, 0, 2⟩, .popDue 99, .peek]
    Queue.answers calls (Queue.empty : HeapQueue FallBag) =
      [(none, 1), (none, 2), (none, 3), (none, 3), (some ⟨100, 0, 2⟩, 3)] ∧
    ∃ q' : HeapQueue FallBag,
      Queue.Drains 150 (Queue.after calls Queue.empty) [⟨100, 0, 2⟩, ⟨100, 2, 4⟩] q' ∧
      q'.contents.Perm [⟨200, 1, 3⟩] := by
  intro calls
  obtain ⟨h_heap, h_queue, -, h_events, ⟨q', h_left, h_drains⟩, -⟩ :=
    answers_eq_sorted (H := FallBag) calls 150
  -- the contents of the queue are computed, and those of the heap are the same
  have h_list : (Queue.after calls SortedFalls.none).falls =
      [⟨100, 0, 2⟩, ⟨100, 2, 4⟩, ⟨200, 1, 3⟩] := h_events.symm.trans rfl
  rw [h_list] at h_left h_drains
  exact ⟨h_heap.trans (h_queue.symm.trans rfl), q', (h_drains _ _).2 ⟨rfl, rfl⟩, h_left⟩

end ServoPulse
