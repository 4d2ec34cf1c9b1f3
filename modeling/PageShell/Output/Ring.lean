/-
A buffer of the newest items.

A ring holds at most `capacity` items: a new item that finds it full drops the oldest one first. So a
ring that starts empty always shows the end of what was pushed to it (`Ring.push_eq_keepLast`).
-/

namespace PageShell

/-- the last `n` items of a list -/
def keepLast {α : Type} (n : Nat) (items : List α) : List α :=
  items.drop (items.length - n)

/-- of what is kept and what is added, as much is kept as if nothing had been dropped before -/
theorem keepLast_append {α : Type} (n : Nat) (old new : List α) :
    keepLast n (keepLast n old ++ new) = keepLast n (old ++ new) := by
  have hdrop : old.drop (old.length - n) ++ new = (old ++ new).drop (old.length - n) :=
    (List.drop_append_of_le_length (Nat.sub_le _ _)).symm
  unfold keepLast
  rw [hdrop, List.drop_drop, List.length_drop, List.length_append]
  congr 1
  omega

theorem keepLast_nil {α : Type} (n : Nat) : keepLast n ([] : List α) = [] :=
  List.drop_nil

theorem length_keepLast {α : Type} (n : Nat) (items : List α) :
    (keepLast n items).length = min n items.length := by
  rw [keepLast, List.length_drop]
  omega

theorem keepLast_of_length_le {α : Type} {n : Nat} {items : List α} (h : items.length ≤ n + 1) :
    keepLast n items = if n < items.length then items.tail else items := by
  unfold keepLast
  split
  · rw [show items.length - n = 1 by omega, List.drop_one]
  · rw [show items.length - n = 0 by omega, List.drop_zero]

/-- the newest item is always kept -/
theorem getLast?_keepLast {α : Type} {n : Nat} (h : 0 < n) (items : List α) :
    (keepLast n items).getLast? = items.getLast? := by
  rw [keepLast, List.getLast?_drop]
  split
  · rw [List.length_eq_zero_iff.1 (by omega : items.length = 0)]
    rfl
  · rfl

/-- items, the oldest first, and how many are kept -/
structure Ring (α : Type) where
  capacity : Nat
  items : List α
  deriving DecidableEq, Repr

/-- why there is no ring of a capacity -/
inductive CapacityError where
  | zero
  deriving DecidableEq, Repr

/-- the wording of a refused capacity -/
def CapacityError.message : CapacityError → String
  | .zero => "RingBuffer capacity must be greater than 0"

namespace Ring

variable {α : Type}

/-- the empty ring of a capacity, which must not be zero -/
def ofCapacity (capacity : Nat) : Except CapacityError (Ring α) :=
  if capacity = 0 then .error .zero else .ok ⟨capacity, []⟩

/-- add an item, behind which the oldest one has made room if the ring was full -/
def push (r : Ring α) (item : α) : Ring α :=
  let kept := if r.items.length = r.capacity then r.items.tail else r.items
  { r with items := kept ++ [item] }

/-- a ring that holds no more than it may keeps the newest of its items and the one that is added -/
theorem push_eq_keepLast {r : Ring α} (hpositive : 0 < r.capacity) (hle : r.items.length ≤ r.capacity) (item : α) :
    r.push item = ⟨r.capacity, keepLast r.capacity (r.items ++ [item])⟩ := by
  have hlength : (r.items ++ [item]).length = r.items.length + 1 := by
    rw [List.length_append, List.length_singleton]
  rw [push, keepLast_of_length_le (by omega)]
  by_cases hfull : r.items.length = r.capacity
  · have hsome : r.items ≠ [] := List.ne_nil_of_length_pos (by omega)
    rw [if_pos hfull, if_pos (by omega), List.tail_append_of_ne_nil hsome]
  · rw [if_neg hfull, if_neg (by omega)]

/-- a ring that shows the end of some items shows the end of them and the one that is added -/
theorem push_keepLast {capacity : Nat} (hpositive : 0 < capacity) (items : List α) (item : α) :
    push ⟨capacity, keepLast capacity items⟩ item = ⟨capacity, keepLast capacity (items ++ [item])⟩ := by
  have hle : (keepLast capacity items).length ≤ capacity := by
    rw [length_keepLast]
    exact Nat.min_le_left _ _
  rw [push_eq_keepLast hpositive hle, keepLast_append]

/-- adding an item loses items at most -/
theorem mem_push {r : Ring α} {item a : α} (h : a ∈ (r.push item).items) : a ∈ r.items ∨ a = item := by
  rcases List.mem_append.1 h with hold | hnew
  · left
    split at hold
    · exact List.mem_of_mem_tail hold
    · exact hold
  · right
    exact List.mem_singleton.1 hnew

/-- add items one after another -/
def pushAll (r : Ring α) (items : List α) : Ring α :=
  items.foldl push r

/-- drop all items -/
def clear (r : Ring α) : Ring α :=
  { r with items := [] }

/-- the item at a place, counted from the oldest -/
def get? (r : Ring α) (index : Nat) : Option α :=
  r.items[index]?

/-- the items, the newest first -/
def newestFirst (r : Ring α) : List α :=
  r.items.reverse

/-- the oldest item -/
def oldest? (r : Ring α) : Option α :=
  r.items.head?

/-- the newest item -/
def newest? (r : Ring α) : Option α :=
  r.items.getLast?

/-- how many items there are -/
def size (r : Ring α) : Nat :=
  r.items.length

end Ring

end PageShell
