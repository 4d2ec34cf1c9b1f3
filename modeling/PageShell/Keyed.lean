/-
Association lists kept in the order of their keys.

Keys are compared by code points. `insert` replaces the value of a key that is there and else puts
the pair at its place, so the keys stay strictly increasing (`ordered_insert`), and `find?` sees
exactly the last value given for a key (`find?_insert`).
-/

namespace PageShell.Keyed

variable {α : Type}

/-- the keys are strictly increasing -/
def Ordered (l : List (String × α)) : Prop :=
  l.Pairwise (·.1 < ·.1)

/-- put a value under a key -/
def insert (key : String) (value : α) : List (String × α) → List (String × α)
  | [] => [(key, value)]
  | (k, v) :: rest =>
    if key < k then (key, value) :: (k, v) :: rest
    else if key = k then (key, value) :: rest
    else (k, v) :: insert key value rest

/-- the value under a key -/
def find? (key : String) : List (String × α) → Option α
  | [] => none
  | (k, v) :: rest => if k = key then some v else find? key rest

/-- the pairs in key order; of pairs with one key the last one stays -/
def ofList (pairs : List (String × α)) : List (String × α) :=
  pairs.foldl (fun l p => insert p.1 p.2 l) []

/-- order is a matter of the keys alone -/
theorem ordered_of_keys {β : Type} {l : List (String × α)} {m : List (String × β)}
    (h : l.map Prod.fst = m.map Prod.fst) (hm : Ordered m) : Ordered l := by
  have hm : (m.map Prod.fst).Pairwise (· < ·) := List.pairwise_map.2 hm
  exact List.pairwise_map.1 (h ▸ hm)

theorem mem_insert {key : String} {value : α} {l : List (String × α)} {p : String × α}
    (h : p ∈ insert key value l) : p = (key, value) ∨ p ∈ l := by
  induction l with
  | nil => simpa [insert] using h
  | cons q rest ih =>
    obtain ⟨k, v⟩ := q
    unfold insert at h
    split at h
    · simpa using h
    · split at h
      · rcases List.mem_cons.1 h with h | h
        · exact .inl h
        · exact .inr (List.mem_cons_of_mem _ h)
      · rcases List.mem_cons.1 h with h | h
        · exact .inr (h ▸ List.mem_cons_self ..)
        · exact (ih h).imp id (List.mem_cons_of_mem _)

/-- insertion keeps the order -/
theorem ordered_insert {key : String} {value : α} {l : List (String × α)} (h : Ordered l) :
    Ordered (insert key value l) := by
  induction l with
  | nil => simp [insert, Ordered]
  | cons q rest ih =>
    obtain ⟨k, v⟩ := q
    obtain ⟨hk, hr⟩ := List.pairwise_cons.1 h
    unfold insert
    split
    · rename_i hlt
      refine List.pairwise_cons.2 ⟨fun p hp => ?_, h⟩
      rcases List.mem_cons.1 hp with rfl | hp
      · exact hlt
      · exact String.lt_trans hlt (hk p hp)
    · split
      · rename_i heq
        subst heq
        exact List.pairwise_cons.2 ⟨hk, hr⟩
      · rename_i hlt hne
        refine List.pairwise_cons.2 ⟨fun p hp => ?_, ih hr⟩
        rcases mem_insert hp with rfl | hp
        · exact Std.lt_of_le_of_ne (Std.not_lt.1 hlt) (Ne.symm hne)
        · exact hk p hp

theorem ordered_foldl_insert (pairs l : List (String × α)) (h : Ordered l) :
    Ordered (pairs.foldl (fun l p => insert p.1 p.2 l) l) := by
  induction pairs generalizing l with
  | nil => exact h
  | cons p rest ih => exact ih _ (ordered_insert h)

/-- a list made from pairs is in order -/
theorem ordered_ofList (pairs : List (String × α)) : Ordered (ofList pairs) :=
  ordered_foldl_insert pairs [] List.Pairwise.nil

theorem mem_foldl_insert {pairs l : List (String × α)} {p : String × α}
    (h : p ∈ pairs.foldl (fun l p => insert p.1 p.2 l) l) : p ∈ pairs ∨ p ∈ l := by
  induction pairs generalizing l with
  | nil => exact .inr h
  | cons q rest ih =>
    rcases ih h with h | h
    · exact .inl (List.mem_cons_of_mem _ h)
    · rcases mem_insert h with rfl | h
      · exact .inl (List.mem_cons_self ..)
      · exact .inr h

/-- a list made from pairs holds none but these -/
theorem mem_ofList {pairs : List (String × α)} {p : String × α} (h : p ∈ ofList pairs) :
    p ∈ pairs :=
  (mem_foldl_insert h).resolve_right (by simp)

/-- reading after writing: the key holds the new value and every other key what it held -/
theorem find?_insert {key k : String} {value : α} {l : List (String × α)} :
    find? k (insert key value l) = if key = k then some value else find? k l := by
  induction l with
  | nil => simp [insert, find?]
  | cons q rest ih =>
    obtain ⟨k', v'⟩ := q
    unfold insert
    split
    · simp [find?]
    · split
      · rename_i heq
        subst heq
        by_cases hk : key = k <;> simp [find?, hk]
      · rename_i hne
        by_cases hk : k' = k
        · subst hk
          simp [find?, hne]
        · simp [find?, hk, ih]

end PageShell.Keyed
