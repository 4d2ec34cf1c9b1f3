/-
Entries of a file system: directories, files and executables.

The children of a directory are kept in the order of their names, and no two have one name. That
holds on every level of a well-ordered entry (`WellOrdered`); `arrange` makes any entry
well-ordered.
-/
import PageShell.Builtin
import PageShell.Keyed

namespace PageShell

/-- what a file holds -/
inductive Content where
  | text (s : String)
  | binary (bytes : List UInt8)
  deriving DecidableEq, Repr

/-- a directory with its children, a file, or an executable bound to a command -/
inductive Entry where
  | dir (children : List (String × Entry))
  | file (content : Content)
  | exec (builtin : Builtin)
  deriving Repr

namespace Entry

/-- a file of text -/
def text (s : String) : Entry :=
  .file (.text s)

/-- a file of bytes -/
def binary (bytes : List UInt8) : Entry :=
  .file (.binary bytes)

/-- a directory -/
def isDir : Entry → Bool
  | .dir _ => true
  | _ => false

theorem isDir_iff {e : Entry} : e.isDir = true ↔ ∃ children, e = .dir children := by
  cases e <;> simp [isDir]

/-- the children of a directory -/
def children? : Entry → Option (List (String × Entry))
  | .dir children => some children
  | _ => none

/-! ## Equality -/

mutual

/-- equality of entries -/
def same : Entry → Entry → Bool
  | .dir a, .dir b => sameAll a b
  | .file a, .file b => a == b
  | .exec a, .exec b => a == b
  | _, _ => false

/-- equality of lists of children -/
def sameAll : List (String × Entry) → List (String × Entry) → Bool
  | [], [] => true
  | (m, a) :: as, (n, b) :: bs => m == n && same a b && sameAll as bs
  | _, _ => false

end

mutual

theorem same_iff : ∀ {a b : Entry}, same a b = true ↔ a = b
  | .dir as, .dir bs => by simp [same, sameAll_iff]
  | .file _, .file _ => by simp [same]
  | .exec _, .exec _ => by simp [same]
  | .dir _, .file _ | .dir _, .exec _ | .file _, .dir _ | .file _, .exec _ | .exec _, .dir _
  | .exec _, .file _ => by simp [same]

theorem sameAll_iff : ∀ {as bs : List (String × Entry)}, sameAll as bs = true ↔ as = bs
  | [], [] => by simp [sameAll]
  | [], _ :: _ | _ :: _, [] => by simp [sameAll]
  | (m, a) :: as, (n, b) :: bs => by
    have he := @same_iff a b
    have hr := @sameAll_iff as bs
    simp [sameAll, he, hr, and_assoc]

end

instance : DecidableEq Entry := fun _ _ => decidable_of_iff _ same_iff

/-! ## Order -/

mutual

/-- on every level the names are strictly increasing -/
def WellOrdered : Entry → Prop
  | .dir children => Keyed.Ordered children ∧ AllWellOrdered children
  | .file _ | .exec _ => True

/-- every child is well-ordered -/
def AllWellOrdered : List (String × Entry) → Prop
  | [] => True
  | (_, e) :: rest => WellOrdered e ∧ AllWellOrdered rest

end

mutual

/-- the entry with the children of every directory in order; of children with one name the last
one stays -/
def arrange : Entry → Entry
  | .dir children => .dir (Keyed.ofList (arrangeAll children))
  | .file c => .file c
  | .exec b => .exec b

/-- the children, each arranged -/
def arrangeAll : List (String × Entry) → List (String × Entry)
  | [] => []
  | (n, e) :: rest => (n, arrange e) :: arrangeAll rest

end

theorem allWellOrdered_iff {cs : List (String × Entry)} :
    AllWellOrdered cs ↔ ∀ p ∈ cs, WellOrdered p.2 := by
  induction cs with
  | nil => simp [AllWellOrdered]
  | cons p rest ih =>
    obtain ⟨n, e⟩ := p
    simp [AllWellOrdered, ih]

theorem allWellOrdered_ofList {pairs : List (String × Entry)} (h : AllWellOrdered pairs) :
    AllWellOrdered (Keyed.ofList pairs) :=
  allWellOrdered_iff.2 fun p hp => allWellOrdered_iff.1 h p (Keyed.mem_ofList hp)

mutual

theorem wellOrdered_arrange : ∀ e : Entry, WellOrdered (arrange e)
  | .dir children => by
    simp only [arrange, WellOrdered]
    exact ⟨Keyed.ordered_ofList _,
      allWellOrdered_ofList (allWellOrdered_arrangeAll children)⟩
  | .file _ => trivial
  | .exec _ => trivial

theorem allWellOrdered_arrangeAll : ∀ cs : List (String × Entry), AllWellOrdered (arrangeAll cs)
  | [] => trivial
  | (_, e) :: rest => ⟨wellOrdered_arrange e, allWellOrdered_arrangeAll rest⟩

end

end Entry

end PageShell
