/-
What a list made from pairs holds.

Of several pairs with one key the last one is kept (`Kept`), and `Keyed.ofList` holds just the kept ones
(`mem_ofList_iff`). So the order of pairs with different keys does not matter, and a list in order is made from its own
pairs (`ofList_of_perm`).
-/
import Mathlib.Data.List.Sort
import PageShell.Keyed

namespace PageShell.Keyed

variable {α : Type} {key : String} {value : α}

/-! ## Looking up -/

theorem find?_mem {l : List (String × α)} (h : find? key l = some value) : (key, value) ∈ l := by
  induction l with
  | nil => cases h
  | cons p rest ih =>
    obtain ⟨k, v⟩ := p
    by_cases hk : k = key
    · simp only [find?, hk, if_true, Option.some.injEq] at h
      rw [hk, h]
      exact List.mem_cons_self
    · simp only [find?, hk, if_false] at h
      exact List.mem_cons_of_mem (k, v) (ih h)

/-- in a list with increasing keys each pair is the one that is found -/
theorem find?_of_mem {l : List (String × α)} (ho : Ordered l) (h : (key, value) ∈ l) :
    find? key l = some value := by
  induction l with
  | nil => cases h
  | cons p rest ih =>
    obtain ⟨k, v⟩ := p
    obtain ⟨hk, hr⟩ := List.pairwise_cons.1 ho
    rcases List.mem_cons.1 h with h | h
    · cases h
      simp [find?]
    · have hlt : k < key := hk (key, value) h
      have hne : k ≠ key := fun e => String.lt_irrefl key (e ▸ hlt)
      simp only [find?, hne, if_false]
      exact ih hr h

/-! ## Kept pairs -/

/-- the last pair with the key `key` holds `value` -/
inductive Kept (key : String) (value : α) : List (String × α) → Prop
  | here {rest : List (String × α)} (h : ∀ p ∈ rest, p.1 ≠ key) : Kept key value ((key, value) :: rest)
  | later {p : String × α} {rest : List (String × α)} (h : Kept key value rest) : Kept key value (p :: rest)

theorem Kept.mem {pairs : List (String × α)} (h : Kept key value pairs) : (key, value) ∈ pairs := by
  induction h with
  | here => exact List.mem_cons_self
  | later _ ih => exact List.mem_cons_of_mem _ ih

theorem Kept.unique {w : α} {pairs : List (String × α)} (h : Kept key value pairs) (hw : Kept key w pairs) :
    value = w := by
  induction h with
  | here hrest =>
    cases hw with
    | here => rfl
    | later hw => exact absurd rfl (hrest (key, w) hw.mem)
  | later h ih =>
    cases hw with
    | here hrest => exact absurd rfl (hrest (key, value) h.mem)
    | later hw => exact ih hw

/-- where no two pairs have one key, all are kept -/
theorem kept_of_mem {pairs : List (String × α)} (hne : pairs.Pairwise fun p q => p.1 ≠ q.1)
    (h : (key, value) ∈ pairs) : Kept key value pairs := by
  induction pairs with
  | nil => cases h
  | cons p rest ih =>
    obtain ⟨hp, hrest⟩ := List.pairwise_cons.1 hne
    rcases List.mem_cons.1 h with rfl | h
    · exact .here fun q hq => (hp q hq).symm
    · exact .later (ih hrest h)

theorem find?_foldl_insert {pairs l : List (String × α)} :
    find? key (pairs.foldl (fun l p => insert p.1 p.2 l) l) = some value ↔
      Kept key value pairs ∨ ((∀ p ∈ pairs, p.1 ≠ key) ∧ find? key l = some value) := by
  induction pairs generalizing l with
  | nil =>
    constructor
    · exact fun h => .inr ⟨by simp, h⟩
    · rintro (h | h)
      · cases h
      · exact h.2
  | cons q rest ih =>
    obtain ⟨k, v⟩ := q
    rw [List.foldl_cons, ih, find?_insert, List.forall_mem_cons]
    constructor
    · rintro (h | ⟨hrest, h⟩)
      · exact .inl (.later h)
      · split_ifs at h with hk
        · cases h
          subst hk
          exact .inl (.here hrest)
        · exact .inr ⟨⟨hk, hrest⟩, h⟩
    · rintro (h | ⟨⟨hk, hrest⟩, h⟩)
      · cases h with
        | here hrest => exact .inr ⟨hrest, if_pos rfl⟩
        | later h => exact .inl h
      · exact .inr ⟨hrest, (if_neg hk).trans h⟩

/-- a list made from pairs holds the pairs that are kept, and no others -/
theorem mem_ofList_iff {pairs : List (String × α)} : (key, value) ∈ ofList pairs ↔ Kept key value pairs := by
  have hfind : find? key (ofList pairs) = some value ↔ Kept key value pairs := by
    rw [ofList, find?_foldl_insert]
    simp [find?]
  exact ⟨fun h => hfind.1 (find?_of_mem (ordered_ofList pairs) h), fun h => find?_mem (hfind.2 h)⟩

theorem Ordered.eq_of_mem_iff {l m : List (String × α)} (hl : Ordered l) (hm : Ordered m)
    (h : ∀ p, p ∈ l ↔ p ∈ m) : l = m := by
  have : Std.Irrefl fun p q : String × α => p.1 < q.1 := ⟨fun p => String.lt_irrefl p.1⟩
  have : Std.Asymm fun p q : String × α => p.1 < q.1 := ⟨fun _ _ => String.lt_asymm⟩
  exact List.Pairwise.eq_of_mem_iff hl hm h

/-- pairs whose keys are all different can be put in order from any order -/
theorem ofList_of_perm {pairs l : List (String × α)} (hl : Ordered l) (h : pairs.Perm l) : ofList pairs = l := by
  have hne : l.Pairwise fun p q => p.1 ≠ q.1 := by
    refine hl.imp ?_
    intro p q hlt heq
    exact String.lt_irrefl q.1 (heq ▸ hlt)
  have hkeys : pairs.Pairwise fun p q => p.1 ≠ q.1 := (h.pairwise_iff Ne.symm).2 hne
  apply Ordered.eq_of_mem_iff (ordered_ofList pairs) hl
  rintro ⟨k, v⟩
  rw [mem_ofList_iff, ← h.mem_iff]
  exact ⟨Kept.mem, kept_of_mem hkeys⟩

/-! ## Lists of related values -/

variable {β : Type} {R : α → β → Prop}

/-- two lists with the same keys and related values -/
def Related (R : α → β → Prop) : List (String × α) → List (String × β) → Prop :=
  List.Forall₂ fun p q => p.1 = q.1 ∧ R p.2 q.2

theorem Related.insert {l : List (String × α)} {m : List (String × β)} {w : β} (h : Related R l m)
    (hw : R value w) : Related R (insert key value l) (insert key w m) := by
  induction h with
  | nil => exact .cons ⟨rfl, hw⟩ .nil
  | @cons p q l m hpq hrest ih =>
    obtain ⟨k, v⟩ := p
    obtain ⟨k', v'⟩ := q
    obtain ⟨rfl, hv⟩ := hpq
    unfold Keyed.insert
    split
    · exact .cons ⟨rfl, hw⟩ (.cons ⟨rfl, hv⟩ hrest)
    · split
      · exact .cons ⟨rfl, hw⟩ hrest
      · exact .cons ⟨rfl, hv⟩ ih

theorem Related.ofList {pairs : List (String × α)} {pairs' : List (String × β)} (h : Related R pairs pairs') :
    Related R (ofList pairs) (ofList pairs') := by
  have hfold : ∀ {l : List (String × α)} {m : List (String × β)}, Related R l m →
      Related R (pairs.foldl (fun l p => Keyed.insert p.1 p.2 l) l)
        (pairs'.foldl (fun l p => Keyed.insert p.1 p.2 l) m) := by
    induction h with
    | nil => exact fun hl => hl
    | @cons p q pairs pairs' hpq _ ih =>
      obtain ⟨k, v⟩ := p
      obtain ⟨k', v'⟩ := q
      obtain ⟨rfl, hv⟩ := hpq
      exact fun hl => ih (hl.insert hv)
  exact hfold .nil

end PageShell.Keyed
