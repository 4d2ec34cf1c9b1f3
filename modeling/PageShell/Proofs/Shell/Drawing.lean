/-
Reading a drawn directory.

A line of a drawing says how deep its entry lies, whether the entry and the directories above it are the last ones of their
own directory, and what the entry is called. Each of its columns takes four characters, so it is read column by column up to
the branch, and whatever stands behind the branch is the name (`readRow_text`). The depths and the names of all lines make
up the outline of the directory again (`read_draw`), and what each line says of its entry is true (`forall₂_draws`).
-/
import PageShell.Proofs.FileSystem.Outline
import PageShell.Shell.Commands

namespace PageShell

/-! ## Rows -/

namespace Tree

/-- what a line says: if each directory above the entry is the last of its own, if the entry is, and what it is called -/
structure Row where
  above : List Bool
  last : Bool
  name : String
  deriving DecidableEq, Repr

namespace Row

/-- a row with one more directory above it -/
def under (last : Bool) (r : Row) : Row :=
  { r with above := last :: r.above }

/-- the line of a row -/
def text (r : Row) : String :=
  String.join (r.above.map column) ++ branch r.last ++ " " ++ r.name

theorem text_root (last : Bool) (name : String) : (Row.mk [] last name).text = branch last ++ " " ++ name := by
  simp [text]

theorem text_under (last : Bool) (r : Row) : (r.under last).text = column last ++ r.text := by
  simp only [under, text, List.map_cons, String.join_cons, String.append_assoc]

end Row

end Tree

namespace Outline

open PageShell.Tree (Row)

/-- nothing is left of a directory -/
def isNil : Outline → Bool
  | .nil => true
  | .cons .. => false

/-- the rows of an outline, each name in front of those below it -/
def rows : Outline → List Row
  | .nil => []
  | .cons name below rest => ⟨[], rest.isNil, name⟩ :: (below.rows.map (Row.under rest.isNil) ++ rest.rows)

theorem isNil_outlineAll (children : List (String × Entry)) : (Entry.outlineAll children).isNil = children.isEmpty := by
  cases children <;> rfl

/-- the rows say how deep the names lie -/
theorem map_rows (o : Outline) (depth : Nat) :
    o.rows.map (fun r => (depth + r.above.length, r.name)) = o.listed depth := by
  induction o generalizing depth with
  | nil => rfl
  | cons name below rest ihbelow ihrest =>
    rw [rows, listed, ← ihbelow, ← ihrest, List.map_cons, List.map_append, List.map_map]
    simp [Row.under, Function.comp_def, Nat.add_comm, Nat.add_left_comm]

end Outline

namespace Tree

open Outline (rows isNil_outlineAll)

mutual

/-- what is drawn below an entry depends on its outline only -/
theorem drawBelow_eq : ∀ (indent : String) (e : Entry),
    drawBelow indent e = e.outline.rows.map fun r => indent ++ r.text
  | indent, .dir children => drawAll_eq indent children
  | _, .file _ | _, .exec _ => rfl

theorem drawAll_eq : ∀ (indent : String) (children : List (String × Entry)),
    drawAll indent children = (Entry.outlineAll children).rows.map fun r => indent ++ r.text
  | _, [] => rfl
  | indent, (name, e) :: rest => by
    rw [drawAll, Entry.outlineAll, rows, isNil_outlineAll, List.map_cons, List.map_append, List.map_map,
      drawBelow_eq _ e, drawAll_eq indent rest]
    simp [Row.text_root, Row.text_under, Function.comp_def, String.append_assoc]

end

theorem draw_eq (children : List (String × Entry)) : draw children = (Entry.outlineAll children).rows.map Row.text := by
  simp [draw, drawAll_eq]

/-! ## Reading a drawing -/

/-- read a line: columns up to a branch, and the name behind it -/
def readRow : List Char → Option Row
  | '│' :: ' ' :: ' ' :: ' ' :: cs => (readRow cs).map (Row.under false)
  | ' ' :: ' ' :: ' ' :: ' ' :: cs => (readRow cs).map (Row.under true)
  | '├' :: '─' :: '─' :: ' ' :: cs => some ⟨[], false, String.ofList cs⟩
  | '└' :: '─' :: '─' :: ' ' :: cs => some ⟨[], true, String.ofList cs⟩
  | _ => none

/-- read the outline of a directory off the lines of its drawing -/
def read (lines : List String) : Option Outline :=
  (lines.mapM fun line => readRow line.toList).map fun rs => Outline.ofDepths (rs.map fun r => (r.above.length, r.name))

theorem readRow_text (r : Row) : readRow r.text.toList = some r := by
  obtain ⟨above, last, name⟩ := r
  induction above with
  | nil => cases last <;> simp [Row.text_root, branch, readRow]
  | cons b above ih =>
    have hunder : Row.mk (b :: above) last name = Row.under b ⟨above, last, name⟩ := rfl
    rw [hunder, Row.text_under, String.toList_append]
    cases b <;> simp [column, readRow, ih]

theorem mapM_readRow (rs : List Row) : (rs.map Row.text).mapM (fun line => readRow line.toList) = some rs := by
  induction rs with
  | nil => rfl
  | cons r rs ih => simp [readRow_text, ih]

theorem read_draw (children : List (String × Entry)) : read (draw children) = some (Entry.outlineAll children) := by
  have hdepths := (Entry.outlineAll children).map_rows 0
  simp only [Nat.zero_add] at hdepths
  rw [draw_eq, read, mapM_readRow, Option.map_some, hdepths, Outline.ofDepths_listed]

example : read ["├── a", "│   └── │   ", "└── b"] = some (.cons "a" (.cons "│   " .nil .nil) (.cons "b" .nil .nil)) := by
  cbv

/-! ## What the lines say -/

/-- some entry stands behind the one that a chain of names leads to, in the same directory -/
def HasLater (root : Entry) (names : List String) : Prop :=
  ∃ before name later, names = before ++ [name] ∧ name < later ∧ (root.descend (before ++ [later])).isSome

/-- a row is right about the entry that a chain of names leads to -/
structure Draws (root : Entry) (names : List String) (r : Row) : Prop where
  name : names.getLast? = some r.name
  depth : names.length = r.above.length + 1
  last : r.last = false ↔ HasLater root names
  above : ∀ i last, r.above[i]? = some last → (last = false ↔ HasLater root (names.take (i + 1)))

theorem hasLater_singleton {children : List (String × Entry)} (h : Keyed.Ordered children) {name : String} :
    HasLater (.dir children) [name] ↔ ∃ p ∈ children, name < p.1 := by
  constructor
  · rintro ⟨before, n, later, hsplit, hlt, hsome⟩
    obtain ⟨rfl, heq⟩ := List.append_eq_singleton_iff.1 hsplit.symm |>.resolve_right (by simp)
    cases heq
    obtain ⟨e, he⟩ := Option.isSome_iff_exists.1 hsome
    obtain ⟨children', child, heq, hfind, -⟩ := Entry.descend_cons_eq_some he
    cases heq
    exact ⟨(later, child), Keyed.find?_mem hfind, hlt⟩
  · rintro ⟨⟨later, e⟩, hmem, hlt⟩
    refine ⟨[], name, later, rfl, hlt, ?_⟩
    simp [Entry.descend_cons_dir, Keyed.find?_of_mem h hmem]

/-- in a directory that is drawn up to one of its entries, something is left if that entry is not the last one -/
theorem isEmpty_eq_false_iff_hasLater {done rest : List (String × Entry)} {name : String} {e : Entry}
    (h : Keyed.Ordered (done ++ (name, e) :: rest)) :
    rest.isEmpty = false ↔ HasLater (.dir (done ++ (name, e) :: rest)) [name] := by
  rw [hasLater_singleton h]
  obtain ⟨-, hrest, hdone⟩ := List.pairwise_append.1 h
  constructor
  · intro hne
    obtain ⟨p, rest, rfl⟩ := List.exists_cons_of_ne_nil (List.isEmpty_eq_false_iff.1 hne)
    exact ⟨p, by simp, (List.pairwise_cons.1 hrest).1 p List.mem_cons_self⟩
  · rintro ⟨p, hp, hlt⟩
    refine List.isEmpty_eq_false_iff.2 ?_
    rintro rfl
    rcases List.mem_append.1 hp with hp | hp
    · exact String.lt_asymm hlt (hdone p hp (name, e) List.mem_cons_self)
    · cases List.mem_singleton.1 hp
      exact String.lt_irrefl name hlt

theorem hasLater_cons {children : List (String × Entry)} {n : String} {e : Entry}
    (h : Keyed.find? n children = some e) {names : List String} (hne : names ≠ []) :
    HasLater (.dir children) (n :: names) ↔ HasLater e names := by
  have hdescend : ∀ ns, (Entry.dir children).descend (n :: ns) = e.descend ns := by
    intro ns
    rw [Entry.descend_cons_dir, h, Option.bind_some]
  constructor
  · rintro ⟨before, name, later, hsplit, hlt, hsome⟩
    cases before with
    | nil => exact absurd (List.cons.inj hsplit).2 hne
    | cons m before =>
      obtain ⟨rfl, rfl⟩ := List.cons.inj hsplit
      exact ⟨before, name, later, rfl, hlt, hdescend _ ▸ hsome⟩
  · rintro ⟨before, name, later, rfl, hlt, hsome⟩
    exact ⟨n :: before, name, later, rfl, hlt, (hdescend _).symm ▸ hsome⟩

/-- a row that is right about an entry of a directory is right above the directory with one more column -/
theorem Draws.under {children : List (String × Entry)} {n : String} {e : Entry} (h : Keyed.find? n children = some e)
    {last : Bool} (hlast : last = false ↔ HasLater (.dir children) [n]) {names : List String} {r : Row}
    (hr : Draws e names r) : Draws (.dir children) (n :: names) (r.under last) := by
  have hne : names ≠ [] := fun heq => by simpa [heq] using hr.depth
  refine ⟨?_, ?_, ?_, ?_⟩
  · rw [List.getLast?_cons, hr.name]
    rfl
  · exact congrArg (· + 1) hr.depth
  · exact hr.last.trans (hasLater_cons h hne).symm
  · intro i b hb
    cases i with
    | zero =>
      cases hb
      simpa using hlast
    | succ i =>
      rw [List.take_succ_cons, hasLater_cons h (by simpa using hne)]
      exact hr.above i b hb

mutual

/-- each row of an entry's outline is right about the entry that its chain leads to -/
theorem forall₂_draws : ∀ {e : Entry}, e.WellOrdered → List.Forall₂ (Draws e) e.outline.chains e.outline.rows
  | .dir _, h => forall₂_draws_all [] h.1 h.2
  | .file _, _ | .exec _, _ => List.Forall₂.nil

-- `done` are the children already drawn: names lead on from the whole directory, while its rows come child by child
theorem forall₂_draws_all : ∀ (done : List (String × Entry)) {children : List (String × Entry)},
    Keyed.Ordered (done ++ children) → Entry.AllWellOrdered children →
      List.Forall₂ (Draws (.dir (done ++ children))) (Entry.outlineAll children).chains (Entry.outlineAll children).rows
  | _, [], _, _ => List.Forall₂.nil
  | done, (name, e) :: rest, hordered, hall => by
    have hfind := Keyed.find?_of_mem hordered (List.mem_append_right done List.mem_cons_self)
    have hlast := isEmpty_eq_false_iff_hasLater hordered
    rw [Entry.outlineAll, Outline.chains, Outline.rows, isNil_outlineAll]
    refine List.Forall₂.cons ⟨rfl, rfl, hlast, by simp⟩ (List.rel_append ?_ ?_)
    · rw [List.forall₂_map_left_iff, List.forall₂_map_right_iff]
      exact (forall₂_draws hall.1).imp fun _ _ hr => hr.under hfind hlast
    · rw [List.append_cons]
      exact forall₂_draws_all (done ++ [(name, e)]) (List.append_cons .. ▸ hordered) hall.2

end

/-- two directories are drawn alike if they have the same outline, and only then -/
theorem draw_eq_draw_iff (children others : List (String × Entry)) :
    draw children = draw others ↔ Entry.outlineAll children = Entry.outlineAll others := by
  constructor
  · intro heq
    have hread := congrArg read heq
    rw [read_draw, read_draw] at hread
    exact Option.some.inj hread
  · intro heq
    rw [draw_eq, draw_eq, heq]

/--
**Faithful drawings.** What `tree` prints of a directory below the dot is its drawing. The outline of the directory can be
read off it, so two directories are drawn alike just if they have the same names on every level, and that is just if the same
names lead to an entry in both. Every entry below the directory has one line, in the order of the names that lead to it. The
line is columns, a branch, a space and the name of the entry. Its branch is `├──` just if some entry stands behind this one
in its directory, and `└──` else. Each of its columns is `│` and three spaces just if some entry stands behind the directory
above that the column belongs to, and four spaces else.
-/
theorem draw_faithful {children others : List (String × Entry)} (h : (Entry.dir children).WellOrdered)
    (hothers : (Entry.dir others).WellOrdered) :
    (∀ (ctx : Context) (args : List String), ctx.lookup (ctx.resolve args.head?) = some (.dir children) →
      Commands.tree ctx args = .ok (.lines (("." :: draw children).map .text))) ∧
    read (draw children) = some (Entry.outlineAll children) ∧
    (draw children = draw others ↔ Entry.outlineAll children = Entry.outlineAll others) ∧
    (draw children = draw others ↔
      ∀ names, ((Entry.dir children).descend names).isSome ↔ ((Entry.dir others).descend names).isSome) ∧
    ∃ chains : List (List String), chains.Pairwise (· < ·) ∧
      (∀ names, names ∈ chains ↔ names ≠ [] ∧ ((Entry.dir children).descend names).isSome) ∧
      List.Forall₂ (fun names line => ∃ r, Draws (.dir children) names r ∧
        line = String.join (r.above.map fun last => if last then "    " else "│   ") ++
          (if r.last then "└──" else "├──") ++ " " ++ r.name) chains (draw children) := by
  have hsame := draw_eq_draw_iff children others
  refine ⟨?_, read_draw children, hsame, hsame.trans (Outline.outline_eq_iff h hothers), ?_⟩
  · intro ctx args hdir
    simp [Commands.tree, hdir, drawBelow, draw]
  · refine ⟨(Entry.outlineAll children).chains, Outline.pairwise_chains h, fun _ => Outline.mem_chains_iff h, ?_⟩
    rw [draw_eq, List.forall₂_map_right_iff]
    exact (forall₂_draws h).imp fun _ r hr => ⟨r, hr, rfl⟩

/-- names that look like branches: the drawings differ in the columns in front of them -/
theorem draw_faithful_branches :
    let children := [("a", Entry.dir [("└── b", .text ""), ("├── c", .dir [])])]
    let others := [("a", Entry.dir [("└── b", .dir [("├── c", .text "")])])]
    (Entry.dir children).WellOrdered ∧ (Entry.dir others).WellOrdered ∧
      draw children = ["└── a", "    ├── └── b", "    └── ├── c"] ∧
      draw others = ["└── a", "    └── └── b", "        └── ├── c"] ∧
      read (draw children) = some (Entry.outlineAll children) ∧
      Entry.outlineAll children ≠ Entry.outlineAll others := by
  intro children others
  have h : (Entry.dir children).WellOrdered := by
    simp only [children, Entry.WellOrdered, Entry.AllWellOrdered, Keyed.Ordered, Entry.text]
    decide
  have hothers : (Entry.dir others).WellOrdered := by
    simp only [others, Entry.WellOrdered, Entry.AllWellOrdered, Keyed.Ordered, Entry.text]
    decide
  have hne : draw children ≠ draw others := by decide
  obtain ⟨-, hread, hsame, -, -⟩ := draw_faithful h hothers
  exact ⟨h, hothers, by decide, by decide, hread, fun heq => hne (hsame.2 heq)⟩

end Tree

end PageShell
