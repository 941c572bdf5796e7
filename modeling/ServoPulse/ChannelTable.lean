import ServoPulse.Channel

/-!
# The channel table

Six slots of which the first `count` are configured, indexed by servo number. The view
of a table is `ChannelTable.active`, the configured channels in servo order: a step of
the table steps each of them (`active_step`), a new pin list replaces them by channels
at rest (`active_assign`), and a write to a servo that is not configured changes nothing
(`modify_of_le`).
-/

namespace ServoPulse

/-- Storage for the servo channels. -/
structure ChannelTable where
  /-- The slots, by servo number. -/
  slots : Vector Channel maxServos := Vector.replicate maxServos {}
  /-- The number of configured channels. -/
  count : Nat := 0
  deriving DecidableEq, Inhabited

namespace ChannelTable

/-- The configured channels, in servo order. -/
def active (t : ChannelTable) : List Channel := t.slots.toList.take t.count

/-- The channel of servo `n`, if it is configured. -/
def get? (t : ChannelTable) (n : Nat) : Option Channel :=
  if n < t.count then t.slots[n]? else none

/-- Changes the channel of servo `n`, if it is configured. -/
def modify (t : ChannelTable) (n : Nat) (f : Channel → Channel) : ChannelTable :=
  if h : n < maxServos then
    if n < t.count then { t with slots := t.slots.set n (f t.slots[n]) } else t
  else t

/-- Steps every configured channel toward its target. -/
def step (t : ChannelTable) : ChannelTable :=
  { t with slots := t.slots.mapIdx fun i c => if i < t.count then c.step else c }

/-- Whether some configured channel is off its target. -/
def anyMoving (t : ChannelTable) : Bool := t.active.any Channel.isMoving

/-- The table with one channel at rest for each pin, servo `i` on the `i`-th of them, and
the slots beyond them empty. -/
def assign (pins : List Nat) : ChannelTable where
  slots := Vector.ofFn fun i => { pin := pins[i.val]?.getD 0 }
  count := min pins.length maxServos

/-! ### The configured channels -/

@[simp] theorem step_count (t : ChannelTable) : t.step.count = t.count := rfl

@[simp] theorem modify_count (t : ChannelTable) (n : Nat) (f : Channel → Channel) :
    (t.modify n f).count = t.count := by
  unfold modify
  repeat' split
  all_goals rfl

theorem getElem?_active (t : ChannelTable) (n : Nat) : t.active[n]? = t.get? n := by
  simp [active, get?, List.getElem?_take]

/-- A step of the table steps each configured channel. -/
@[simp] theorem active_step (t : ChannelTable) : t.step.active = t.active.map Channel.step := by
  apply List.ext_getElem?
  intro n
  simp only [active, step, List.getElem?_map, List.getElem?_take]
  by_cases h : n < t.count <;> simp [h]

theorem modify_of_le {t : ChannelTable} {n : Nat} (h : t.count ≤ n) (f : Channel → Channel) :
    t.modify n f = t := by
  unfold modify
  split
  · exact if_neg (Nat.not_lt.2 h)
  · rfl

/-- A write to a servo changes that channel and no other. -/
theorem get?_modify (t : ChannelTable) (n m : Nat) (f : Channel → Channel) :
    (t.modify n f).get? m = if n = m then (t.get? m).map f else t.get? m := by
  unfold modify get?
  by_cases h : n = m
  · subst h
    by_cases hn : n < maxServos
    · by_cases hc : n < t.count <;> simp [hn, hc]
    · simp [hn]
  · repeat' split
    all_goals simp_all

/-- The channels of a new pin list are at rest. -/
theorem active_assign {pins : List Nat} (h : pins.length ≤ maxServos) :
    (assign pins).active = pins.map fun pin => { pin } := by
  apply List.ext_getElem?
  intro n
  simp only [active, assign, List.getElem?_take, List.getElem?_map, Nat.min_eq_left h]
  by_cases hn : n < pins.length
  · simp [hn, Nat.lt_of_lt_of_le hn h]
  · simp [hn]

end ChannelTable

end ServoPulse
