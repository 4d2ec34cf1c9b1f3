/-
What `ls` writes of a directory.

`ls` takes the directories out of the children and then all else, while a listing sorts the children by kind. Both show
the same names in the same order: `ls` writes one line, which is the listing of the path that its operand leads to
(`ls_shows_listing`).
-/
import PageShell.Proofs.FileSystem.Listing
import PageShell.Proofs.Shell.Sessions

namespace PageShell

/-- where its operand leads to a directory, `ls` writes the names in it on one line -/
theorem Shell.run_call_ls {shell : Shell} {session : Session} {args : List String} {children : List (String × Entry)}
    (h : shell.files.lookup (Path.resolve args.head? session.cwd) = some (.dir children)) (net : Network) :
    (shell.call session .ls args).run net =
      ⟨[.append (.text (Listed.row (Listed.ofChildren children)))], [], .success session⟩ := by
  have hrun : Commands.ls ⟨shell, session⟩ args = .ok (.text (Listed.row (Listed.ofChildren children))) := by
    simp [Commands.ls, Context.lookup, Context.resolve, h]
  rw [Shell.call, Builtin.run, hrun]
  rfl

/--
**`ls` and the listing agree.** Where the operand of `ls`, or the working directory if it has none, leads to a directory,
`ls` succeeds and writes one line of text: the names of the listing with a space between each two and a slash behind each
directory. The listing holds each child once and nothing else, with all directories before all else, and in each of the
two groups the names increase.
-/
theorem ls_shows_listing (shell : Shell) (session : Session) (args : List String) {children : List (String × Entry)}
    (h : shell.files.lookup (Path.resolve args.head? session.cwd) = some (.dir children)) (net : Network) :
    ∃ listing, shell.files.listing (Path.resolve args.head? session.cwd) = some listing ∧
      (shell.call session .ls args).run net =
        ⟨[.append (.text (" ".intercalate (listing.map fun l => if l.isDir then l.name ++ "/" else l.name)))], [],
          .success session⟩ ∧
      listing.Perm (children.map fun p => ⟨p.1, p.2.isDir⟩) ∧ (listing.map (·.name)).Nodup ∧
      listing.Pairwise Listed.Before := by
  have hordered : Keyed.Ordered children := FileSystem.ordered_of_lookup h
  have hlisting : shell.files.listing (Path.resolve args.head? session.cwd) = some (Listed.ofChildren children) := by
    rw [FileSystem.listing_eq, h]
    rfl
  refine ⟨Listed.ofChildren children, hlisting, ?_, ?_, ?_, ?_⟩
  · exact Shell.run_call_ls h net
  · exact Listed.perm_ofChildren children
  · exact Listed.nodup_ofChildren hordered
  · exact Listed.pairwise_ofChildren hordered

/-- both kinds, and names whose order by code points is not that of UTF-16 -/
theorem ls_shows_listing_mixed :
    let files := FileSystem.ofChildren
      [("d", .dir [("😀", .text ""), ("ｚ", .exec .ls), ("z", .dir []), ("É", .dir [("x", .text "")]), ("a", .binary [0])])]
    files.lookup (Path.resolve (some "../d//") "/x") =
        some (.dir [("a", .binary [0]), ("z", .dir []), ("É", .dir [("x", .text "")]), ("ｚ", .exec .ls), ("😀", .text "")]) ∧
      ((Shell.call ⟨files, .standard⟩ ⟨"/x", .ofList []⟩ .ls ["../d//", "more"]).run (.ofReplies [])).writes =
        [.append (.text "z/ É/ a ｚ 😀")] := by
  intro files
  have hdir : files.lookup (Path.resolve (some "../d//") "/x") =
      some (.dir [("a", .binary [0]), ("z", .dir []), ("É", .dir [("x", .text "")]), ("ｚ", .exec .ls),
        ("😀", .text "")]) := by decide +kernel
  obtain ⟨listing, hlisting, hrun, -, -, -⟩ :=
    ls_shows_listing ⟨files, .standard⟩ ⟨"/x", .ofList []⟩ ["../d//", "more"] hdir (.ofReplies [])
  have hnames : files.listing (Path.resolve (some "../d//") "/x") =
      some [⟨"z", true⟩, ⟨"É", true⟩, ⟨"a", false⟩, ⟨"ｚ", false⟩, ⟨"😀", false⟩] := by decide +kernel
  obtain rfl := Option.some.inj (hnames.symm.trans hlisting)
  exact ⟨hdir, by rw [hrun]; decide⟩

end PageShell
