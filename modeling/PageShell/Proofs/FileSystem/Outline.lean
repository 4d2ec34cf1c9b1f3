/-
The names of a directory at every level.

An outline keeps of a directory the names in it and what they hold of further names, so files, executables and empty
directories are all alike in it. Its chains of names, the outer ones first, are strictly increasing in the order of lists
(`pairwise_chains`), and they are just the chains that lead to an entry (`mem_chains_iff`): two directories have the same
outline if the same names lead to something in both (`outline_eq_iff`). An outline can be read off the depths of its names
alone (`ofDepths_listed`).
-/
import PageShell.Proofs.FileSystem.Descent

namespace PageShell

/-- the names in a directory: the first of them, the names below it, and the rest -/
inductive Outline where
  | nil
  | cons (name : String) (below rest : Outline)
  deriving DecidableEq, Repr

namespace Entry

mutual

/-- the names below an entry -/
def outline : Entry → Outline
  | .dir children => outlineAll children
  | .file _ | .exec _ => .nil

/-- the names of some entries, and those below them -/
def outlineAll : List (String × Entry) → Outline
  | [] => .nil
  | (name, e) :: rest => .cons name (outline e) (outlineAll rest)

end

end Entry

namespace Outline

/-! ## Chains of names -/

/-- the chains of names that an outline holds, each name in front of those below it -/
def chains : Outline → List (List String)
  | .nil => []
  | .cons name below rest => [name] :: (below.chains.map (name :: ·) ++ rest.chains)

example : (Entry.outlineAll [("a", .dir [("x", .text "")]), ("b", .dir [])]).chains = [["a"], ["a", "x"], ["b"]] := by
  decide

theorem mem_chains_cons {name n : String} {below rest : Outline} {names : List String} :
    n :: names ∈ (cons name below rest).chains ↔
      n = name ∧ (names = [] ∨ names ∈ below.chains) ∨ n :: names ∈ rest.chains := by
  simp only [chains, List.mem_cons, List.mem_append, List.mem_map, List.cons.injEq]
  constructor
  · rintro (⟨rfl, rfl⟩ | ⟨names', hmem, rfl, rfl⟩ | hrest)
    · exact Or.inl ⟨rfl, Or.inl rfl⟩
    · exact Or.inl ⟨rfl, Or.inr hmem⟩
    · exact Or.inr hrest
  · rintro (⟨rfl, rfl | hmem⟩ | hrest)
    · exact Or.inl ⟨rfl, rfl⟩
    · exact Or.inr (Or.inl ⟨names, hmem, rfl, rfl⟩)
    · exact Or.inr (Or.inr hrest)

theorem nil_not_mem_chains (o : Outline) : [] ∉ o.chains := by
  induction o with
  | nil => exact List.not_mem_nil
  | cons name below rest _ ih => simpa [chains] using ih

theorem mem_chains_outlineAll {children : List (String × Entry)} {n : String} {names : List String} :
    n :: names ∈ (Entry.outlineAll children).chains ↔
      ∃ e, (n, e) ∈ children ∧ (names = [] ∨ names ∈ e.outline.chains) := by
  induction children with
  | nil => simp [Entry.outlineAll, chains]
  | cons p children ih =>
    obtain ⟨name, e⟩ := p
    rw [Entry.outlineAll, mem_chains_cons, ih]
    constructor
    · rintro (⟨rfl, hmem⟩ | ⟨e', he', hmem⟩)
      · exact ⟨e, List.mem_cons_self, hmem⟩
      · exact ⟨e', List.mem_cons_of_mem _ he', hmem⟩
    · rintro ⟨e', he', hmem⟩
      rcases List.mem_cons.1 he' with heq | he'
      · cases heq
        exact Or.inl ⟨rfl, hmem⟩
      · exact Or.inr ⟨e', he', hmem⟩

/-- the chains of an outline are those that lead to an entry -/
theorem mem_chains_iff {e : Entry} (h : e.WellOrdered) {names : List String} :
    names ∈ e.outline.chains ↔ names ≠ [] ∧ (e.descend names).isSome := by
  induction names generalizing e with
  | nil => simp [nil_not_mem_chains]
  | cons n names ih =>
    cases e with
    | file c => simp [Entry.outline, chains, Entry.descend]
    | exec b => simp [Entry.outline, chains, Entry.descend]
    | dir children =>
      obtain ⟨hordered, hall⟩ := h
      have hchild : ∀ {e'}, (n, e') ∈ children →
          (names = [] ∨ names ∈ e'.outline.chains ↔ (e'.descend names).isSome) := by
        intro e' he'
        rw [ih (Entry.allWellOrdered_iff.1 hall _ he')]
        by_cases hnames : names = []
        · simp [hnames]
        · simp [hnames]
      rw [Entry.outline, mem_chains_outlineAll, Entry.descend_cons_dir]
      constructor
      · rintro ⟨e', he', hmem⟩
        refine ⟨List.cons_ne_nil n names, ?_⟩
        rw [Keyed.find?_of_mem hordered he', Option.bind_some]
        exact (hchild he').1 hmem
      · rintro ⟨-, hsome⟩
        cases hfind : Keyed.find? n children with
        | none => simp [hfind] at hsome
        | some e' =>
          rw [hfind, Option.bind_some] at hsome
          have he' := Keyed.find?_mem hfind
          exact ⟨e', he', (hchild he').2 hsome⟩

mutual

/-- the chains come in the order of their names, the shorter of two first that start alike -/
theorem pairwise_chains : ∀ {e : Entry}, e.WellOrdered → e.outline.chains.Pairwise (· < ·)
  | .dir _, h => pairwise_chains_all h.1 h.2
  | .file _, _ | .exec _, _ => List.Pairwise.nil

theorem pairwise_chains_all : ∀ {children : List (String × Entry)}, Keyed.Ordered children →
    Entry.AllWellOrdered children → (Entry.outlineAll children).chains.Pairwise (· < ·)
  | [], _, _ => List.Pairwise.nil
  | (name, e) :: rest, hordered, hall => by
    obtain ⟨hfirst, hordered⟩ := List.pairwise_cons.1 hordered
    have hbelow : (e.outline.chains.map (name :: ·)).Pairwise (· < ·) := by
      refine List.pairwise_map.2 ((pairwise_chains hall.1).imp ?_)
      intro a b hab
      exact List.cons_lt_cons_iff.2 (Or.inr ⟨rfl, hab⟩)
    have hrest := pairwise_chains_all hordered hall.2
    have hlater : ∀ {names}, names ∈ (Entry.outlineAll rest).chains → ∀ names', name :: names' < names := by
      intro names hnames names'
      cases names with
      | nil => exact absurd hnames (nil_not_mem_chains _)
      | cons n names =>
        obtain ⟨e', he', -⟩ := mem_chains_outlineAll.1 hnames
        exact List.cons_lt_cons_iff.2 (Or.inl (hfirst (n, e') he'))
    refine List.pairwise_cons.2 ⟨?_, List.pairwise_append.2 ⟨hbelow, hrest, ?_⟩⟩
    · intro names hnames
      rcases List.mem_append.1 hnames with hnames | hnames
      · obtain ⟨names', hmem, rfl⟩ := List.mem_map.1 hnames
        have hne : names' ≠ [] := fun heq => nil_not_mem_chains _ (heq ▸ hmem)
        obtain ⟨n, ns, rfl⟩ := List.exists_cons_of_ne_nil hne
        exact List.cons_lt_cons_iff.2 (Or.inr ⟨rfl, List.nil_lt_cons n ns⟩)
      · exact hlater hnames []
    · intro a ha b hb
      obtain ⟨names', -, rfl⟩ := List.mem_map.1 ha
      exact hlater hb names'

end

/-! ## Reading an outline off the depths of its names -/

/-- all names, each in front of those below it, with their depths -/
def listed (depth : Nat) : Outline → List (Nat × String)
  | .nil => []
  | .cons name below rest => (depth, name) :: (below.listed (depth + 1) ++ rest.listed depth)

/-- put a name in front of what waits at its depth, and over what waits one deeper -/
def place (p : Nat × String) (waiting : Nat → Outline) : Nat → Outline := fun depth =>
  if depth = p.1 then .cons p.2 (waiting (p.1 + 1)) (waiting p.1)
  else if depth = p.1 + 1 then .nil
  else waiting depth

/-- the outline of names at these depths, read from the last to the first -/
def ofDepths (names : List (Nat × String)) : Outline :=
  names.foldr place (fun _ => .nil) 0

example : ofDepths [(0, "a"), (1, "x"), (0, "b")] = .cons "a" (.cons "x" .nil .nil) (.cons "b" .nil .nil) := by decide

/-- an outline with another one behind it -/
def append : Outline → Outline → Outline
  | .nil, o => o
  | .cons name below rest, o => .cons name below (rest.append o)

theorem append_nil (o : Outline) : o.append .nil = o := by
  induction o with
  | nil => rfl
  | cons name below rest _ ih => rw [append, ih]

/-- what is read at a depth is put in front of what waits there, if nothing waits deeper -/
theorem foldr_place_listed (o : Outline) (depth : Nat) {waiting : Nat → Outline}
    (h : ∀ d, depth < d → waiting d = .nil) :
    (o.listed depth).foldr place waiting = fun d => if d = depth then o.append (waiting depth) else waiting d := by
  induction o generalizing depth waiting with
  | nil =>
    funext d
    by_cases hd : d = depth <;> simp [listed, append, hd]
  | cons name below rest ihbelow ihrest =>
    have hrest := ihrest depth h
    have hdeeper : ∀ d, depth + 1 < d → (rest.listed depth).foldr place waiting d = .nil := by
      intro d hd
      rw [hrest]
      simp [h d (by omega), show d ≠ depth by omega]
    have hbelow := ihbelow (depth + 1) hdeeper
    have hone : waiting (depth + 1) = .nil := h (depth + 1) (Nat.lt_succ_self depth)
    rw [listed, List.foldr_cons, List.foldr_append, hbelow, hrest]
    funext d
    by_cases hd : d = depth
    · simp [place, hd, hone, append, append_nil]
    · by_cases hd' : d = depth + 1
      · simp [place, hd', hone]
      · simp [place, hd, hd']

theorem ofDepths_listed (o : Outline) : ofDepths (o.listed 0) = o := by
  rw [ofDepths, foldr_place_listed o 0 fun _ _ => rfl]
  exact o.append_nil

/-- the depth of a name is one less than the length of the chain that ends in it -/
theorem listed_eq_map_chains (o : Outline) (depth : Nat) :
    o.listed depth = o.chains.map fun names => (depth + names.length - 1, names.getLastD "") := by
  induction o generalizing depth with
  | nil => rfl
  | cons name below rest ihbelow ihrest =>
    rw [listed, chains, List.map_cons, List.map_append, List.map_map, ← ihrest, ihbelow]
    refine congrArg₂ _ rfl (congrArg (· ++ _) (List.map_congr_left fun names hnames => ?_))
    obtain ⟨n, ns, rfl⟩ := List.exists_cons_of_ne_nil fun heq => nil_not_mem_chains below (heq ▸ hnames)
    simp only [Function.comp_apply, List.length_cons, List.getLastD_cons]
    congr 1
    omega

theorem chains_injective : Function.Injective chains := by
  intro a b hab
  rw [← ofDepths_listed a, ← ofDepths_listed b, listed_eq_map_chains, listed_eq_map_chains, hab]

/-- the outline of a well-ordered entry is known from the chains that lead on from it -/
theorem outline_eq_iff {a b : Entry} (ha : a.WellOrdered) (hb : b.WellOrdered) :
    a.outline = b.outline ↔ ∀ names, (a.descend names).isSome ↔ (b.descend names).isSome := by
  constructor
  · intro heq names
    by_cases hnames : names = []
    · simp [hnames]
    · have hboth : names ≠ [] ∧ (a.descend names).isSome ↔ names ≠ [] ∧ (b.descend names).isSome := by
        rw [← mem_chains_iff ha, heq, mem_chains_iff hb]
      simpa [hnames] using hboth
  · intro hsame
    refine chains_injective (List.Pairwise.eq_of_mem_iff (pairwise_chains ha) (pairwise_chains hb) fun names => ?_)
    rw [mem_chains_iff ha, mem_chains_iff hb, hsame]

end Outline

end PageShell
