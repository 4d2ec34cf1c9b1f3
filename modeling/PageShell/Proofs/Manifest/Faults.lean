/-
The nodes of a manifest, and what can be wrong with them.

The nodes are the values that chains of names lead to, of members with one name the last one (`NodeAt`), and `Refused`
says what can be wrong with a node. If several nodes are at fault the first of them counts (`First`): a directory comes
before what it holds, and what it holds comes in the order of the names (`Before`). That is the order in which the
nodes are converted. There is one first fault at most (`first_unique`).

`Settles` relates the result of a conversion to the faults that it can meet.
-/
import PageShell.Proofs.Manifest.Shapes

namespace PageShell

namespace Manifest

open Json (Value)

/-! ## Nodes and their faults -/

/-- names lead from a value through directories to a node -/
inductive NodeAt : Value → List String → Value → Prop
  | here (v : Value) : NodeAt v [] v
  | inside {members : List (String × Value)} {key : String} {child v : Value} {names : List String}
      (hdir : DirectoryMembers members) (hkept : Keyed.Kept key child members) (h : NodeAt child names v) :
      NodeAt (.object members) (key :: names) v

/-- what is wrong with the node `v` that `names` lead to from the root; its name is checked before its value -/
inductive Refused (names : List String) (v : Value) : ManifestError → Prop
  | name {dir : List String} {name : String} (hnames : names = dir ++ [name]) (h : ¬ValidName name) :
      Refused names v (.invalidName name)
  | command {c : String} (hname : ∀ n, names.getLast? = some n → ValidName n) (hv : Command c v)
      (h : ∀ b : Builtin, b.name ≠ c) : Refused names v (.unknownCommand (Path.absolute names) c)
  | payload {base64 : String} {fault : Base64.Fault} (hname : ∀ n, names.getLast? = some n → ValidName n)
      (hv : Payload base64 v) (h : Base64.decode base64.toByteArray.data.toList = .error fault) :
      Refused names v (.binary (Path.absolute names) fault)

/-- `e` is wrong with the node that `names` lead to from `v`, where `base` leads from the root to `v` -/
def FaultAt (base : List String) (v : Value) (names : List String) (e : ManifestError) : Prop :=
  ∃ w, NodeAt v names w ∧ Refused (base ++ names) w e

/-- a directory comes before what it holds, and what it holds comes in the order of the names -/
def Before (a b : List String) : Prop :=
  List.Lex (· < ·) a b

/-- the fault of the first node at fault -/
def First (faults : List String → ManifestError → Prop) (names : List String) (e : ManifestError) : Prop :=
  faults names e ∧ ∀ names' e', faults names' e' → ¬Before names' names

/-- a conversion succeeds if there is no fault, and else it fails with the first one -/
def Settles {α : Type} (faults : List String → ManifestError → Prop) : Except ManifestError α → Prop
  | .ok _ => ∀ names e, ¬faults names e
  | .error e => ∃ names, First faults names e

theorem Settles.map {α β : Type} {faults : List String → ManifestError → Prop} {r : Except ManifestError α}
    (h : Settles faults r) (f : α → β) : Settles faults (r >>= fun a => .ok (f a)) := by
  cases r with
  | ok a => exact h
  | error e => exact h

/-! ## The order of chains -/

theorem before_cons_iff {a b : String} {l m : List String} :
    Before (a :: l) (b :: m) ↔ a < b ∨ a = b ∧ Before l m :=
  List.cons_lex_cons_iff

theorem not_before_nil (l : List String) : ¬Before l [] := by
  rintro ⟨⟩

theorem not_before_of_lt {a b : String} (h : a < b) (l m : List String) : ¬Before (b :: m) (a :: l) := by
  intro hbefore
  rcases before_cons_iff.1 hbefore with hba | ⟨rfl, -⟩
  · exact String.lt_asymm h hba
  · exact String.lt_irrefl b h

theorem not_before_cons (a : String) {l m : List String} (h : ¬Before m l) : ¬Before (a :: m) (a :: l) := by
  intro hbefore
  rcases before_cons_iff.1 hbefore with haa | ⟨-, hml⟩
  · exact String.lt_irrefl a haa
  · exact h hml

/-- of two chains one comes before the other -/
theorem eq_of_not_before {l m : List String} (hlm : ¬Before l m) (hml : ¬Before m l) : l = m := by
  induction l generalizing m with
  | nil =>
    cases m with
    | nil => rfl
    | cons b m => exact absurd .nil hlm
  | cons a l ih =>
    cases m with
    | nil => exact absurd .nil hml
    | cons b m =>
      rw [before_cons_iff, not_or, not_and] at hlm hml
      have hab : a = b := Std.le_antisymm (Std.not_lt.1 hml.1) (Std.not_lt.1 hlm.1)
      rw [hab, ih (hlm.2 hab) (hml.2 hab.symm)]

/-! ## One fault only -/

theorem nodeAt_unique {v w w' : Value} {names : List String} (h : NodeAt v names w) (h' : NodeAt v names w') :
    w = w' := by
  induction h with
  | here v =>
    cases h'
    rfl
  | inside _ hkept _ ih =>
    cases h' with
    | inside _ hkept' hat =>
      have hchild := hkept.unique hkept'
      subst hchild
      exact ih hat

theorem refused_unique {names : List String} {v : Value} {e e' : ManifestError} (h : Refused names v e)
    (h' : Refused names v e') : e = e' := by
  cases h with
  | name hnames hname =>
    subst hnames
    cases h' with
    | name hnames' _ => rw [(List.append_singleton_inj.1 hnames').2]
    | command hlast _ _ => exact absurd (hlast _ (by simp)) hname
    | payload hlast _ _ => exact absurd (hlast _ (by simp)) hname
  | command hlast hv _ =>
    cases h' with
    | name hnames hname =>
      subst hnames
      exact absurd (hlast _ (by simp)) hname
    | command _ hv' _ => cases hv <;> cases hv' <;> rfl
    | payload _ hv' _ => exact absurd hv' hv.not_payload
  | payload hlast hv hfault =>
    cases h' with
    | name hnames hname =>
      subst hnames
      exact absurd (hlast _ (by simp)) hname
    | command _ hv' _ => exact absurd hv hv'.not_payload
    | payload _ hv' hfault' =>
      cases hv
      cases hv'
      rw [hfault] at hfault'
      cases hfault'
      rfl

/-- there is one first fault at most -/
theorem first_unique {base : List String} {v : Value} {names names' : List String} {e e' : ManifestError}
    (h : First (FaultAt base v) names e) (h' : First (FaultAt base v) names' e') : names = names' ∧ e = e' := by
  have hnames : names = names' := eq_of_not_before (h'.2 names e h.1) (h.2 names' e' h'.1)
  subst hnames
  obtain ⟨w, hat, hrefused⟩ := h.1
  obtain ⟨w', hat', hrefused'⟩ := h'.1
  rw [nodeAt_unique hat hat'] at hrefused
  exact ⟨rfl, refused_unique hrefused hrefused'⟩

end Manifest

end PageShell
