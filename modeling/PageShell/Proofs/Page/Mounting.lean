/-
The files that the page starts with.

The terminal of the site mounts what the manifest of the site holds. To read the manifest takes its characters one by one,
so they are written out once (`Manifest.load_of_chars`) and not looked up in the text at each of them; what they stand for
is then computed (`Site.load_manifest`).
-/
import PageShell.Page.Terminal
import PageShell.Proofs.Manifest.RoundTrip

namespace PageShell

namespace Manifest

/-- the entry that the characters of a manifest stand for -/
def entryOfChars? (chars : List Char) : Option Entry := do
  let r ← chars.foldlM Json.Reader.step .start
  let document ← r.result.toOption
  let node ← Node.ofJson? document.value
  if document.trailing then none else (node.toEntry "/").toOption

theorem ok_of_toOption {ε α : Type} {result : Except ε α} {a : α} (h : result.toOption = some a) : result = .ok a := by
  cases result with
  | error e => cases h
  | ok b =>
    obtain rfl : b = a := Option.some.inj h
    rfl

/-- a file system is loaded from a text if its characters stand for the root directory -/
theorem load_of_chars {text : String} {chars : List Char} {fs : FileSystem} (htext : text = String.ofList chars)
    (hentry : entryOfChars? chars = some fs.rootEntry) : load text = .ok fs := by
  simp only [entryOfChars?, Option.bind_eq_bind, Option.bind_eq_some_iff] at hentry
  obtain ⟨r, hr, document, hdocument, node, hnode, hentry⟩ := hentry
  obtain ⟨htrailing, hentry⟩ : document.trailing = false ∧ (node.toEntry "/").toOption = some fs.rootEntry := by
    simpa using hentry
  have hread : Json.read text = .ok document := by
    rw [Json.read, htext, String.toList_ofList, hr]
    exact ok_of_toOption hdocument
  have hparse : parse text = .ok node := by
    rw [parse, hread]
    simp only [hnode, htrailing, Bool.false_eq_true, if_false]
  exact load_of_toEntry hparse (ok_of_toOption hentry)

end Manifest

/-- **The manifest of the site is loaded.** It holds the files of the site. -/
theorem Site.load_manifest : Manifest.load manifest = .ok files := by
  apply Manifest.load_of_chars (by unfold manifest; rfl)
  decide +kernel

/-- the terminal of the site has its files and begins with a welcome -/
theorem Terminal.start_eq : start = mounted (.ok Site.files) := by
  rw [start, Site.load_manifest]

end PageShell
