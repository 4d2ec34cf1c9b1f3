/-
Which entries a registry keeps, and who goes by them.

An entry is registered unless its name is taken, so of several entries with one name the first one counts. One
registration keeps just the first entry of each name, in the order in which the names come (`FirstEntries.register`), and
so does any number of them (`firstEntries_ofList`). Looking a name up, `help` and the commands that run without a search
all go by the entries that are kept (`registry_keeps_first_entries`).
-/
import Mathlib.Algebra.Order.BigOperators.Group.List
import Mathlib.Algebra.Order.Group.Nat
import PageShell.Proofs.Shell.Dispatch

namespace PageShell

namespace Registry

/-! ## Registering one entry after another -/

/-- the first entry of each name among some entries, in the order in which the names first come -/
structure FirstEntries (entries kept : List RegistryEntry) : Prop where
  mem_iff : ∀ e, e ∈ kept ↔ entries.find? (·.name == e.name) = some e
  order : kept.Pairwise fun a b => entries.findIdx (·.name == a.name) < entries.findIdx (·.name == b.name)

section Register

variable {seen kept : List RegistryEntry} {e : RegistryEntry} {name : String}

theorem exists_find (h : ∃ k ∈ seen, k.name = name) : ∃ k, seen.find? (·.name == name) = some k ∧ k.name = name := by
  have hsome : (seen.find? (·.name == name)).isSome = true := by simpa using h
  obtain ⟨k, hk⟩ := Option.isSome_iff_exists.1 hsome
  exact ⟨k, hk, by simpa using List.find?_some hk⟩

/-- an entry behind the others changes nothing for the names that they have -/
theorem find_concat_of_taken (h : ∃ k ∈ seen, k.name = name) :
    (seen ++ [e]).find? (·.name == name) = seen.find? (·.name == name) ∧
      (seen ++ [e]).findIdx (·.name == name) = seen.findIdx (·.name == name) := by
  obtain ⟨k, hk, -⟩ := exists_find h
  constructor
  · rw [List.find?_append, hk, Option.some_or]
  · rw [List.findIdx_append, if_pos (List.findIdx_lt_length_of_exists (by simpa using h))]

/-- for any other name it is the only entry there can be -/
theorem find_concat_of_new (h : ¬∃ k ∈ seen, k.name = name) {x : RegistryEntry} :
    (seen ++ [e]).find? (·.name == name) = some x ↔ e = x ∧ x.name = name := by
  have hnone : seen.find? (·.name == name) = none := by simpa using h
  rw [List.find?_append, hnone, Option.none_or, List.find?_singleton]
  simp only [beq_iff_eq, Option.ite_none_right_eq_some, Option.some.injEq]
  constructor
  · rintro ⟨hname, rfl⟩
    exact ⟨rfl, hname⟩
  · rintro ⟨rfl, hname⟩
    exact ⟨hname, rfl⟩

namespace FirstEntries

theorem exists_iff (h : FirstEntries seen kept) : (∃ k ∈ kept, k.name = name) ↔ ∃ k ∈ seen, k.name = name := by
  constructor
  · intro ⟨k, hk, hname⟩
    exact ⟨k, List.mem_of_find?_eq_some ((h.mem_iff k).1 hk), hname⟩
  · intro hseen
    obtain ⟨k, hk, hname⟩ := exists_find hseen
    exact ⟨k, (h.mem_iff k).2 (by rwa [hname]), hname⟩

/-- there is only one way to keep the first entries -/
theorem unique {kept' : List RegistryEntry} (h : FirstEntries seen kept) (h' : FirstEntries seen kept') :
    kept = kept' := by
  let Before (a b : RegistryEntry) : Prop := seen.findIdx (·.name == a.name) < seen.findIdx (·.name == b.name)
  have : Std.Irrefl Before := ⟨fun _ => lt_irrefl _⟩
  have : Std.Asymm Before := ⟨fun _ _ => lt_asymm⟩
  exact List.Pairwise.eq_of_mem_iff h.order h'.order fun e => (h.mem_iff e).trans (h'.mem_iff e).symm

/-- the name of a kept entry first comes where it did before -/
theorem findIdx_concat (h : FirstEntries seen kept) {k : RegistryEntry} (hk : k ∈ kept) :
    (seen ++ [e]).findIdx (·.name == k.name) = seen.findIdx (·.name == k.name) :=
  (find_concat_of_taken (h.exists_iff.1 ⟨k, hk, rfl⟩)).2

theorem order_concat (h : FirstEntries seen kept) (e : RegistryEntry) : kept.Pairwise fun a b =>
    (seen ++ [e]).findIdx (·.name == a.name) < (seen ++ [e]).findIdx (·.name == b.name) := by
  apply h.order.imp_of_mem
  intro a b ha hb hlt
  rwa [h.findIdx_concat ha, h.findIdx_concat hb]

/-- an entry whose name is taken is not kept -/
theorem concat_of_taken (h : FirstEntries seen kept) (htaken : ∃ k ∈ seen, k.name = e.name) :
    FirstEntries (seen ++ [e]) kept where
  mem_iff x := by
    by_cases hx : ∃ k ∈ seen, k.name = x.name
    · rw [(find_concat_of_taken hx).1, h.mem_iff]
    · have hout : x ∉ kept := fun hmem => hx (h.exists_iff.1 ⟨x, hmem, rfl⟩)
      have hnot : (seen ++ [e]).find? (·.name == x.name) ≠ some x := by
        intro hfound
        obtain ⟨rfl, -⟩ := (find_concat_of_new hx).1 hfound
        exact hx htaken
      exact iff_of_false hout hnot
  order := h.order_concat e

/-- an entry with a new name is kept behind the others -/
theorem concat_of_new (h : FirstEntries seen kept) (hnew : ¬∃ k ∈ seen, k.name = e.name) :
    FirstEntries (seen ++ [e]) (kept ++ [e]) where
  mem_iff x := by
    rw [List.mem_append, List.mem_singleton]
    by_cases hx : ∃ k ∈ seen, k.name = x.name
    · have hne : x ≠ e := by
        rintro rfl
        exact hnew hx
      simp [(find_concat_of_taken hx).1, h.mem_iff, hne]
    · have hout : x ∉ kept := fun hmem => hx (h.exists_iff.1 ⟨x, hmem, rfl⟩)
      rw [find_concat_of_new hx, and_iff_left rfl, or_iff_right hout, eq_comm]
  order := by
    have hlast : (seen ++ [e]).findIdx (·.name == e.name) = seen.length := by
      have hlength : seen.findIdx (·.name == e.name) = seen.length := by
        rw [List.findIdx_eq_length]
        simpa using hnew
      rw [List.findIdx_append, hlength, if_neg (lt_irrefl _)]
      simp
    refine List.pairwise_append.2 ⟨h.order_concat e, List.pairwise_singleton _ e, ?_⟩
    intro a ha b hb
    obtain rfl := List.mem_singleton.1 hb
    rw [h.findIdx_concat ha, hlast]
    exact List.findIdx_lt_length_of_exists (by simpa using h.exists_iff.1 ⟨a, ha, rfl⟩)

/-- what one registration keeps -/
theorem register (h : FirstEntries seen kept) (e : RegistryEntry) :
    FirstEntries (seen ++ [e]) (Registry.register kept e) := by
  by_cases htaken : ∃ k ∈ seen, k.name = e.name
  · have hregister : Registry.register kept e = kept := if_pos (by simpa using h.exists_iff.2 htaken)
    rw [hregister]
    exact h.concat_of_taken htaken
  · have hregister : Registry.register kept e = kept ++ [e] := if_neg (by simpa using mt h.exists_iff.1 htaken)
    rw [hregister]
    exact h.concat_of_new htaken

/-- what any number of registrations keeps -/
theorem foldl_register (h : FirstEntries seen kept) (entries : List RegistryEntry) :
    FirstEntries (seen ++ entries) (entries.foldl Registry.register kept) := by
  induction entries generalizing seen kept with
  | nil => simpa using h
  | cons e entries ih => simpa using ih (h.register e)

theorem nodup (h : FirstEntries seen kept) : (kept.map (·.name)).Nodup := by
  apply List.pairwise_map.2
  apply h.order.imp
  intro a b hlt heq
  rw [heq] at hlt
  exact lt_irrefl _ hlt

/-- a name is looked up among the kept entries as among all of them -/
theorem find_eq (h : FirstEntries seen kept) (name : String) :
    kept.find? (·.name == name) = seen.find? (·.name == name) := by
  cases hk : kept.find? (·.name == name) with
  | none =>
    have hkept : ¬∃ k ∈ kept, k.name = name := by simpa using hk
    have hseen : ¬∃ k ∈ seen, k.name = name := mt h.exists_iff.2 hkept
    exact (List.find?_eq_none.2 (by simpa using hseen)).symm
  | some k =>
    have hname : k.name = name := by simpa using List.find?_some hk
    rw [← hname]
    exact ((h.mem_iff k).1 (List.mem_of_find?_eq_some hk)).symm

end FirstEntries

end Register

theorem firstEntries_ofList (entries : List RegistryEntry) : FirstEntries entries (ofList entries).entries := by
  have hnone : FirstEntries [] [] := ⟨by simp, List.Pairwise.nil⟩
  exact hnone.foldl_register entries

/-- a name is registered once -/
theorem nodup_ofList (entries : List RegistryEntry) : (ofList entries).names.Nodup :=
  (firstEntries_ofList entries).nodup

/-- entries with different names are all registered -/
theorem foldl_register_of_nodup {kept entries : List RegistryEntry} (h : ((kept ++ entries).map (·.name)).Nodup) :
    entries.foldl register kept = kept ++ entries := by
  induction entries generalizing kept with
  | nil => simp
  | cons e entries ih =>
    have hnew : ¬∃ k ∈ kept, k.name = e.name := by
      intro ⟨k, hk, hname⟩
      rw [List.map_append, List.nodup_append] at h
      exact h.2.2 k.name (List.mem_map_of_mem hk) e.name (by simp) hname
    have hregister : register kept e = kept ++ [e] := if_neg (by simpa using hnew)
    rw [List.foldl_cons, hregister, ih (by simpa using h)]
    simp

end Registry

/-! ## Names that run without a search -/

/-- no directory has entries of all names -/
theorem FileSystem.exists_absent (files : FileSystem) : ∃ name : String, name ≠ "" ∧ (∀ c ∈ name.toList, c = 'x') ∧
    Keyed.find? name files.root = none := by
  obtain ⟨size, hsize⟩ : ∃ size, ∀ p ∈ files.root, p.1.length ≤ size := by
    refine ⟨(files.root.map (·.1.length)).sum, ?_⟩
    intro p hp
    exact List.le_sum_of_mem (List.mem_map_of_mem hp)
  refine ⟨String.ofList (List.replicate (size + 1) 'x'), by simp [List.replicate_succ], ?_, ?_⟩
  · intro c hc
    rw [String.toList_ofList] at hc
    exact List.eq_of_mem_replicate hc
  · cases h : Keyed.find? (String.ofList (List.replicate (size + 1) 'x')) files.root with
    | none => rfl
    | some e =>
      have hle := hsize _ (Keyed.find?_mem h)
      rw [String.length_ofList, List.length_replicate] at hle
      omega

/-- a search path without a colon has one entry -/
theorem Session.searchPath_of_no_colon {dir : String} (h : ∀ c ∈ dir.toList, (c == ':') = false) :
    searchPath ⟨"/", .ofList [(pathKey, dir)]⟩ = [dir] := by
  have hget : (Environment.ofList [(pathKey, dir)]).get? pathKey = some dir := by
    simp [Environment.get?, Environment.ofList, Keyed.ofList, Keyed.insert, Keyed.find?]
  rw [searchPath, hget, Option.getD_some, Text.split_of_none h]
  simp [Text.Pieces.toList]

/-- on some search path a name is not found -/
theorem exists_noExecutable (files : FileSystem) (name : String) :
    ∃ session : Session, NoExecutable files session.searchPath name := by
  obtain ⟨absent, hne, hchars, hfind⟩ := files.exists_absent
  have hname : Path.isName absent = true := by
    refine Path.isName_iff.2 ⟨by simpa using hne, ?_⟩
    intro c hc
    rw [hchars c hc]
    rfl
  have hlookup : files.lookup absent = none := by
    rw [FileSystem.lookup, Path.segments_name hname, FileSystem.rootEntry, Entry.descend_cons_dir, hfind]
    rfl
  refine ⟨⟨"/", .ofList [(Session.pathKey, absent)]⟩, ?_⟩
  intro dir hdir b
  rw [Session.searchPath_of_no_colon fun c hc => by rw [hchars c hc]; rfl, List.mem_singleton] at hdir
  rw [hdir, FileSystem.lookup_below, hlookup]
  simp

/-- the registered names are those that run the same command whatever the session, and so the search path, is -/
theorem Shell.registered_iff (shell : Shell) (name : String) :
    name ∈ shell.registry.names ↔ ∃ b, ∀ session, shell.command? session name = some b := by
  constructor
  · intro hname
    cases hget : shell.registry.get? name with
    | some e => exact ⟨e.builtin, fun session => Shell.command?_eq_some_iff.2 (.registered ⟨e, hget, rfl⟩)⟩
    | none => exact absurd hname (Registry.get?_eq_none_iff.1 hget)
  · intro ⟨b, hb⟩
    by_contra hname
    obtain ⟨session, hnone⟩ := exists_noExecutable shell.files name
    have hcommand : shell.command? session name = none := Shell.command?_eq_none_iff.2 ⟨hname, hnone⟩
    rw [hb] at hcommand
    cases hcommand

/-! ## Those who go by the registry -/

/-- `help` writes a line for each entry of the registry -/
theorem Shell.run_call_help (shell : Shell) (session : Session) (args : List String) (net : Network) :
    (shell.call session .help args).run net =
      ⟨(.text "Available commands:" :: shell.registry.entries.map fun e =>
          Line.text (e.name ++ " - " ++ e.description)).map .append, [], .success session⟩ := by
  have hhelp : shell.call session .help args = conclude session (.ok (Commands.help ⟨shell, session⟩)) := rfl
  rw [hhelp, conclude, Process.run_writeAll]
  simp [Process.run, Commands.help, Effect.lines, Effect.nothing, Session.move, Outcome.success]

/--
**The first entry of each name counts.** Of any entries a registry keeps the first one of each name, in the order in which
the names first come: no name twice, and nothing changes when what is kept is registered again. A name is looked up among
the kept entries as among all of them. `help` shows each kept entry on a line of its own, in their order, and the names on
these lines are those that run the same command, the one they are registered for, whatever the files and the search path
are.
-/
theorem registry_keeps_first_entries (entries : List RegistryEntry) :
    let r := Registry.ofList entries
    (∀ kept, Registry.FirstEntries entries kept ↔ kept = r.entries) ∧ r.names.Nodup ∧
      (∀ name, r.get? name = entries.find? (·.name == name)) ∧ Registry.ofList r.entries = r ∧
      (∀ files session args net, ((Shell.mk files r).call session .help args).run net =
        ⟨(.text "Available commands:" :: r.entries.map fun e =>
            Line.text (e.name ++ " - " ++ e.description)).map .append, [], .success session⟩) ∧
      (∀ files name, name ∈ r.names ↔ ∃ b, ∀ session, (Shell.mk files r).command? session name = some b) ∧
      ∀ e ∈ r.entries, ∀ files session, (Shell.mk files r).command? session e.name = some e.builtin := by
  intro r
  have hfirst : Registry.FirstEntries entries r.entries := Registry.firstEntries_ofList entries
  have hnodup : r.names.Nodup := Registry.nodup_ofList entries
  have hagain : r.entries.foldl Registry.register [] = r.entries := Registry.foldl_register_of_nodup hnodup
  refine ⟨fun kept => ⟨fun h => h.unique hfirst, fun h => h ▸ hfirst⟩, hnodup, hfirst.find_eq, congrArg Registry.mk hagain,
    fun files => Shell.run_call_help ⟨files, r⟩, fun files => Shell.registered_iff ⟨files, r⟩, ?_⟩
  intro e he files session
  have hget : r.get? e.name = some e := (hfirst.find_eq e.name).trans ((hfirst.mem_iff e).1 he)
  exact Shell.command?_eq_some_iff.2 (.registered ⟨e, hget, rfl⟩)

example : Registry.ofList [⟨"a", .ls, "x"⟩, ⟨"b", .cd, ""⟩, ⟨"a", .cat, "y"⟩, ⟨"B", .cd, ""⟩] =
    ⟨[⟨"a", .ls, "x"⟩, ⟨"b", .cd, ""⟩, ⟨"B", .cd, ""⟩]⟩ := by decide

end PageShell
