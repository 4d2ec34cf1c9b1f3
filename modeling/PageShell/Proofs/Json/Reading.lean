/-
Reading a whole JSON document.

From the state before a value, every text of the value leads the reader to the state behind it (`reads_value`), if the
arrays and objects around it and in it are at most `maxDepth` deep. The induction is on the text's derivation, with one
statement for each kind of text. A number is the one thing that can fail, if it lies beyond the doubles; and it is
still being read when its text is at its end, so `Reads` says where the reader is up to such a number. Hence a document
without numbers is read as the value that its text is a text of (`read_document`), and any other document as its value
or not at all (`read_document_or`).
-/
import PageShell.Proofs.Json.Tokens

namespace PageShell.Json

namespace Reader

/-- the reader behind a text -/
def run (r : Reader) (t : List Char) : Option Reader :=
  t.foldlM step r

theorem run_cons (r : Reader) (c : Char) (t : List Char) : run r (c :: t) = (step r c).bind fun r => run r t :=
  List.foldlM_cons ..

theorem run_append (r : Reader) (t u : List Char) : run r (t ++ u) = (run r t).bind fun r => run r u :=
  List.foldlM_append ..

/-- a state that blanks do not change reads a text as if no blanks stood before it -/
theorem run_blanks {r : Reader} (hr : ∀ c, isBlank c = true → step r c = some r) {ws : List Char} (hws : Blanks ws)
    (t : List Char) : run r (ws ++ t) = run r t := by
  induction ws with
  | nil => rfl
  | cons c ws ih =>
    obtain ⟨hc, hws⟩ := List.forall_mem_cons.1 hws
    rw [List.cons_append, run_cons, hr c (isBlank_iff.2 hc)]
    exact ih hws

/-- what a part of the reader reads, the reader reads -/
theorem run_of_foldlM {σ : Type} {f : σ → Char → Option σ} {w : σ → Reader}
    (hw : ∀ s c s', f s c = some s' → step (w s) c = some (w s')) {t : List Char} {s s' : σ}
    (h : t.foldlM f s = some s') : run (w s) t = some (w s') := by
  induction t generalizing s with
  | nil =>
    cases h
    rfl
  | cons c t ih =>
    rw [List.foldlM_cons] at h
    obtain ⟨m, hm, hrest⟩ := Option.bind_eq_some_iff.1 h
    rw [run_cons, hw s c m hm]
    exact ih hrest

/-! ## Behind a value -/

/-- a state behind a value: the value is finished, and blanks may follow -/
structure Behind (q : Reader) : Prop where
  step_eq : ∀ c, step q c = stepAfter q c
  blank : ∀ c, isBlank c = true → stepAfter q c = some q

theorem behind_element (stack : List Frame) (items : List Value) : Behind ⟨stack, .afterElement items⟩ :=
  ⟨fun _ => rfl, fun _ hc => if_pos hc⟩

theorem behind_member (stack : List Frame) (members : List (String × Value)) : Behind ⟨stack, .afterMember members⟩ :=
  ⟨fun _ => rfl, fun _ hc => if_pos hc⟩

theorem behind_finish (v : Value) (stack : List Frame) : Behind (finish v stack) := by
  cases stack with
  | nil => exact ⟨fun _ => rfl, fun _ hc => congrArg some (if_pos hc)⟩
  | cons frame stack =>
    cases frame with
    | element items => exact behind_element stack (v :: items)
    | member members key => exact behind_member stack ((key, v) :: members)

/--
where a reader is that is expected at `q`: there, or in a number that ends where `q` stands, or nowhere. The last two
need `fails`, that a number was read
-/
inductive Reads (fails : Prop) (q : Reader) : Option Reader → Prop
  | refused (h : fails) : Reads fails q none
  | reached : Reads fails q (some q)
  | pending {stack : List Frame} {n : Numeral} (h : fails) (hn : n.isComplete = true)
      (hq : finish .number stack = q) : Reads fails q (some ⟨stack, .numeral n⟩)

namespace Reads

variable {fails fails' : Prop} {q q' : Reader} {o : Option Reader}

theorem imp (h : Reads fails q o) (hf : fails → fails') : Reads fails' q o := by
  cases h with
  | refused h => exact .refused (hf h)
  | reached => exact .reached
  | pending h hn hq => exact .pending (hf h) hn hq

/-- a character that ends a number takes the reader on from `q` -/
theorem delimiter (h : Reads fails q o) (hq : Behind q) {c : Char}
    (hc : c ∈ [' ', '\t', '\n', '\r', ',', ']', '\x7d']) (hnext : stepAfter q c = some q') :
    (fails ∧ (o.bind fun r => step r c) = none) ∨ (o.bind fun r => step r c) = some q' := by
  cases h with
  | refused h => exact .inl ⟨h, rfl⟩
  | reached =>
    right
    rw [Option.bind_some, hq.step_eq, hnext]
  | @pending stack n h hn hfinish =>
    have hstep : step ⟨stack, .numeral n⟩ c = if n.tooLarge then none else stepAfter q c := by
      simp only [step, Numeral.step_of_complete hn hc, hfinish]
    rw [Option.bind_some, hstep, hnext]
    split
    · exact .inl ⟨h, rfl⟩
    · exact .inr rfl

theorem blanks (h : Reads fails q o) (hq : Behind q) {ws : List Char} (hws : Blanks ws) :
    Reads fails q (o.bind fun r => run r ws) := by
  induction ws generalizing o with
  | nil =>
    have hnil : (o.bind fun r => run r []) = o := Option.bind_fun_some o
    rw [hnil]
    exact h
  | cons c ws ih =>
    obtain ⟨hc, hws⟩ := List.forall_mem_cons.1 hws
    have hcons : (o.bind fun r => run r (c :: ws)) = (o.bind fun r => step r c).bind fun r => run r ws := by
      simp only [run_cons, Option.bind_assoc]
    have hmem : c ∈ [' ', '\t', '\n', '\r', ',', ']', '\x7d'] := List.mem_append_left [',', ']', '\x7d'] hc
    rw [hcons]
    rcases delimiter h hq hmem (hq.blank c (isBlank_iff.2 hc)) with ⟨hf, hnone⟩ | hsome
    · rw [hnone]
      exact .refused hf
    · rw [hsome]
      exact ih .reached hws

/-- behind a value a delimiter stands, and the reader goes on with what follows it -/
theorem andThen {p : Reader} {t : List Char} (h : Reads fails q o) (hq : Behind q) {c : Char}
    (hc : c ∈ [' ', '\t', '\n', '\r', ',', ']', '\x7d']) (hnext : stepAfter q c = some q')
    (hrest : Reads fails' p (run q' t)) : Reads (fails ∨ fails') p (o.bind fun r => run r (c :: t)) := by
  have hcons : (o.bind fun r => run r (c :: t)) = (o.bind fun r => step r c).bind fun r => run r t := by
    simp only [run_cons, Option.bind_assoc]
  rw [hcons]
  rcases delimiter h hq hc hnext with ⟨hf, hnone⟩ | hsome
  · rw [hnone]
    exact .refused (.inl hf)
  · rw [hsome]
    exact hrest.imp .inr

/-- a closing bracket takes the reader to the state behind what it closes -/
theorem close (h : Reads fails q o) (hq : Behind q) {c : Char} (hc : c ∈ [' ', '\t', '\n', '\r', ',', ']', '\x7d'])
    (hnext : stepAfter q c = some q') : Reads fails q' (o.bind fun r => run r [c]) := by
  have hnil : Reads fails q' (run q' []) := .reached
  exact (andThen h hq hc hnext hnil).imp fun hf => hf.elim id id

end Reads

/-! ## Strings and numbers -/

/-- a reader that is in a string reads every text of it up to its closing quote -/
theorem run_quoted (w : StringLiteral → Reader) (closed : String → Reader)
    (hw : ∀ l c, step (w l) c = match l.step c with
      | .more l => some (w l)
      | .closed s => some (closed s)
      | .malformed => none)
    {s : String} {t : List Char} (h : CharsText s.toList t) : run (w .start) (t ++ ['"']) = some (closed s) := by
  have hmore : ∀ l c l', StringLiteral.advance? l c = some l' → step (w l) c = some (w l') := by
    intro l c l' hl
    unfold StringLiteral.advance? at hl
    cases hstep : l.step c <;> simp [hstep, StringStep.more?] at hl
    simp [hw, hstep, hl]
  have hbody : run (w .start) t = some (w ⟨.plain, s.toList.reverse ++ []⟩) :=
    run_of_foldlM hmore (StringLiteral.foldlM_charsText h [])
  have hquote : step (w ⟨.plain, s.toList.reverse ++ []⟩) '"' = some (closed s) := by
    rw [hw, StringLiteral.step_quote]
    simp
  rw [run_append, hbody, Option.bind_some, run_cons, hquote]
  rfl

theorem run_string {s : String} {t : List Char} (h : StringText s t) (stack : List Frame) :
    run ⟨stack, .value⟩ t = some (finish (.string s) stack) := by
  obtain ⟨hchars⟩ := h
  have hopen : step ⟨stack, .value⟩ '"' = some ⟨stack, .string .start⟩ := rfl
  rw [run_cons, hopen]
  exact run_quoted (fun l => ⟨stack, .string l⟩) (fun s => finish (.string s) stack) (fun _ _ => rfl) hchars

theorem run_key {s : String} {t : List Char} (h : StringText s t) (stack : List Frame)
    (members : List (String × Value)) : run ⟨stack, .nextMember members⟩ t = some ⟨stack, .colon members s⟩ := by
  obtain ⟨hchars⟩ := h
  have hopen : step ⟨stack, .nextMember members⟩ '"' = some ⟨stack, .key members .start⟩ := rfl
  rw [run_cons, hopen]
  exact run_quoted (fun l => ⟨stack, .key members l⟩) (fun s => ⟨stack, .colon members s⟩) (fun _ _ => rfl) hchars

/-- a character that starts a number starts nothing else -/
theorem step_of_start? {c : Char} {n : Numeral} (h : Numeral.start? c = some n) (stack : List Frame) :
    step ⟨stack, .value⟩ c = some ⟨stack, .numeral n⟩ := by
  have hothers : c ∉ [' ', '\t', '\n', '\r', '"', '[', ']', '\x7b', 't', 'f', 'n'] := by
    intro hc
    rw [Numeral.start?_eq_none hc] at h
    cases h
  simp only [List.mem_cons, List.not_mem_nil, or_false, not_or] at hothers
  simp [step, begin?, isBlank, h, hothers]

theorem run_number {t : List Char} (h : NumberText t) (stack : List Frame) :
    ∃ n, run ⟨stack, .value⟩ t = some ⟨stack, .numeral n⟩ ∧ n.isComplete = true := by
  obtain ⟨c, rest, n, m, rfl, hstart, hrest, hcomplete⟩ := Numeral.reads_number h
  have hwrap : ∀ (k : Numeral) (c : Char) (k' : Numeral), k.advance? c = some k' →
      step ⟨stack, .numeral k⟩ c = some ⟨stack, .numeral k'⟩ := by
    intro k c k' hk
    unfold Numeral.advance? at hk
    cases hstep : k.step c <;> simp [hstep, NumeralStep.more?] at hk
    simp [step, hstep, hk]
  refine ⟨m, ?_, hcomplete⟩
  rw [run_cons, step_of_start? hstart]
  exact run_of_foldlM hwrap hrest

/-! ## Openings -/

/-- where one more level is allowed, an array or object is opened -/
theorem step_bracket {stack : List Frame} {d : Nat} (h : stack.length + (d + 1) ≤ maxDepth) :
    step ⟨stack, .value⟩ '[' = some ⟨stack, .firstElement⟩ := by
  have hroom : stack.length < maxDepth := by omega
  exact if_pos hroom

theorem step_brace {stack : List Frame} {d : Nat} (h : stack.length + (d + 1) ≤ maxDepth) :
    step ⟨stack, .value⟩ '\x7b' = some ⟨stack, .firstMember⟩ := by
  have hroom : stack.length < maxDepth := by omega
  exact if_pos hroom

/-- the text of a value does not start with a blank or a closing bracket -/
theorem head_of_valueText {v : Value} {t : List Char} (h : ValueText v t) :
    ∃ c rest, t = c :: rest ∧ isBlank c = false ∧ c ≠ ']' := by
  cases h with
  | null => exact ⟨_, _, rfl, rfl, by decide⟩
  | true => exact ⟨_, _, rfl, rfl, by decide⟩
  | false => exact ⟨_, _, rfl, rfl, by decide⟩
  | number h =>
    obtain ⟨c, rest, n, -, rfl, hstart, -⟩ := Numeral.reads_number h
    have hothers : c ∉ [' ', '\t', '\n', '\r', '"', '[', ']', '\x7b', 't', 'f', 'n'] := by
      intro hc
      rw [Numeral.start?_eq_none hc] at hstart
      cases hstart
    simp only [List.mem_cons, List.not_mem_nil, or_false, not_or] at hothers
    exact ⟨c, rest, rfl, by simp [isBlank, hothers], by simp [hothers]⟩
  | string h =>
    obtain ⟨_⟩ := h
    exact ⟨_, _, rfl, rfl, by decide⟩
  | emptyArray h => exact ⟨_, _, rfl, rfl, by decide⟩
  | array h => exact ⟨_, _, rfl, rfl, by decide⟩
  | emptyObject h => exact ⟨_, _, rfl, rfl, by decide⟩
  | object h => exact ⟨_, _, rfl, rfl, by decide⟩

/-- the first item of an array is read as any other item -/
theorem run_firstElement {items : List Value} {t : List Char} (h : ItemsText items t) (stack : List Frame) :
    run ⟨stack, .firstElement⟩ t = run ⟨.element [] :: stack, .value⟩ t := by
  have helement : ∀ {v : Value} {t : List Char}, ElementText v t → ∀ u : List Char,
      run ⟨stack, .firstElement⟩ (t ++ u) = run ⟨.element [] :: stack, .value⟩ (t ++ u) := by
    rintro v t ⟨hbefore, hv, hafter⟩ u
    obtain ⟨c, rest, rfl, hblank, hclose⟩ := head_of_valueText hv
    rw [List.append_assoc, run_blanks (r := ⟨stack, .firstElement⟩) (fun _ hc => if_pos hc) hbefore,
      run_blanks (r := ⟨.element [] :: stack, .value⟩) (fun _ hc => if_pos hc) hbefore]
    have hstep : step ⟨stack, .firstElement⟩ c = step ⟨.element [] :: stack, .value⟩ c := by
      simp [step, hblank, hclose]
    simp only [List.cons_append, run_cons, hstep]
  cases h with
  | last h =>
    have := helement h []
    rwa [List.append_nil] at this
  | cons h hs => exact helement h _

/-- the first member of an object is read as any other member -/
theorem run_firstMember {members : List (String × Value)} {t : List Char} (h : MembersText members t)
    (stack : List Frame) : run ⟨stack, .firstMember⟩ t = run ⟨stack, .nextMember []⟩ t := by
  have hmember : ∀ {p : String × Value} {t : List Char}, MemberText p t → ∀ u : List Char,
      run ⟨stack, .firstMember⟩ (t ++ u) = run ⟨stack, .nextMember []⟩ (t ++ u) := by
    rintro p t ⟨hbefore, ⟨hname⟩, hafter, hv⟩ u
    rw [List.append_assoc, run_blanks (r := ⟨stack, .firstMember⟩) (fun _ hc => if_pos hc) hbefore,
      run_blanks (r := ⟨stack, .nextMember []⟩) (fun _ hc => if_pos hc) hbefore]
    rfl
  cases h with
  | last h =>
    have := hmember h []
    rwa [List.append_nil] at this
  | cons h hs => exact hmember h _

/-! ## Values -/

mutual

/-- every text of a value leads from the state before it to the state behind it -/
theorem reads_value : ∀ {v : Value} {t : List Char}, ValueText v t → ∀ stack : List Frame,
    stack.length + v.depth ≤ maxDepth → Reads (¬v.NumberFree) (finish v stack) (run ⟨stack, .value⟩ t)
  | _, _, .null, stack, _ => by
    have hrun : run ⟨stack, .value⟩ ['n', 'u', 'l', 'l'] = some (finish .null stack) := rfl
    rw [hrun]
    exact .reached
  | _, _, .true, stack, _ => by
    have hrun : run ⟨stack, .value⟩ ['t', 'r', 'u', 'e'] = some (finish (.bool true) stack) := rfl
    rw [hrun]
    exact .reached
  | _, _, .false, stack, _ => by
    have hrun : run ⟨stack, .value⟩ ['f', 'a', 'l', 's', 'e'] = some (finish (.bool false) stack) := rfl
    rw [hrun]
    exact .reached
  | _, _, .number h, stack, _ => by
    obtain ⟨n, hrun, hcomplete⟩ := run_number h stack
    rw [hrun]
    exact .pending (fun hfree => nomatch hfree) hcomplete rfl
  | _, _, .string h, stack, _ => by
    rw [run_string h]
    exact .reached
  | _, _, .emptyArray h, stack, hdepth => by
    rw [run_cons, step_bracket hdepth, Option.bind_some, run_blanks (r := ⟨stack, .firstElement⟩) (fun _ hc => if_pos hc) h]
    exact .reached
  | .array items, _, .array h, stack, hdepth => by
    have hclose : stepAfter ⟨stack, .afterElement (items.reverse ++ [])⟩ ']' = some (finish (.array items) stack) := by
      simp [stepAfter, isBlank]
    have hitems := reads_items h stack [] (by simp only [Value.depth] at hdepth; omega)
    rw [run_cons, step_bracket hdepth, Option.bind_some, run_append, run_firstElement h]
    refine (hitems.close (behind_element stack _) (by simp) hclose).imp fun hf hfree => hf ?_
    cases hfree with
    | array hall => exact hall
  | _, _, .emptyObject h, stack, hdepth => by
    rw [run_cons, step_brace hdepth, Option.bind_some, run_blanks (r := ⟨stack, .firstMember⟩) (fun _ hc => if_pos hc) h]
    exact .reached
  | .object members, _, .object h, stack, hdepth => by
    have hclose : stepAfter ⟨stack, .afterMember (members.reverse ++ [])⟩ '\x7d' =
        some (finish (.object members) stack) := by
      simp [stepAfter, isBlank]
    have hmembers := reads_members h stack [] (by simp only [Value.depth] at hdepth; omega)
    rw [run_cons, step_brace hdepth, Option.bind_some, run_append, run_firstMember h]
    refine (hmembers.close (behind_member stack _) (by simp) hclose).imp fun hf hfree => hf ?_
    cases hfree with
    | object hall => exact hall

theorem reads_element : ∀ {v : Value} {t : List Char}, ElementText v t → ∀ stack : List Frame,
    stack.length + v.depth ≤ maxDepth → Reads (¬v.NumberFree) (finish v stack) (run ⟨stack, .value⟩ t)
  | v, _, .padded hbefore hv hafter, stack, hdepth => by
    rw [run_blanks (r := ⟨stack, .value⟩) (fun _ hc => if_pos hc) hbefore, run_append]
    exact (reads_value hv stack hdepth).blanks (behind_finish v stack) hafter

theorem reads_items : ∀ {items : List Value} {t : List Char}, ItemsText items t →
    ∀ (stack : List Frame) (acc : List Value), stack.length + 1 + Value.itemsDepth items ≤ maxDepth →
    Reads (¬∀ v ∈ items, v.NumberFree) ⟨stack, .afterElement (items.reverse ++ acc)⟩
      (run ⟨.element acc :: stack, .value⟩ t)
  | [v], _, .last h, stack, acc, hdepth => by
    have helement := reads_element h (.element acc :: stack) (by
      simp only [Value.itemsDepth] at hdepth
      simp only [List.length_cons]
      omega)
    exact helement.imp fun hf hall => hf (hall v (List.mem_singleton.2 rfl))
  | v :: vs, _, .cons h hs, stack, acc, hdepth => by
    simp only [Value.itemsDepth] at hdepth
    have helement := reads_element h (.element acc :: stack) (by
      simp only [List.length_cons]
      omega)
    have hrest := reads_items hs stack (v :: acc) (by omega)
    have hcomma : stepAfter ⟨stack, .afterElement (v :: acc)⟩ ',' = some ⟨.element (v :: acc) :: stack, .value⟩ := rfl
    rw [run_append, List.reverse_cons, List.append_assoc]
    refine (helement.andThen (behind_element stack (v :: acc)) (by simp) hcomma hrest).imp ?_
    rintro (hf | hf) hall
    · exact hf (hall v List.mem_cons_self)
    · exact hf fun w hw => hall w (List.mem_cons_of_mem v hw)

theorem reads_member : ∀ {p : String × Value} {t : List Char}, MemberText p t →
    ∀ (stack : List Frame) (acc : List (String × Value)), stack.length + 1 + p.2.depth ≤ maxDepth →
    Reads (¬p.2.NumberFree) ⟨stack, .afterMember (p :: acc)⟩ (run ⟨stack, .nextMember acc⟩ t)
  | (key, _), _, .named hbefore hname hafter hv, stack, acc, hdepth => by
    have helement := reads_element hv (.member acc key :: stack) (by
      simp only [List.length_cons]
      omega)
    have hcolon : step ⟨stack, .colon acc key⟩ ':' = some ⟨.member acc key :: stack, .value⟩ := rfl
    rw [run_blanks (r := ⟨stack, .nextMember acc⟩) (fun _ hc => if_pos hc) hbefore, run_append, run_key hname,
      Option.bind_some, run_blanks (r := ⟨stack, .colon acc key⟩) (fun _ hc => if_pos hc) hafter, run_cons, hcolon]
    exact helement

theorem reads_members : ∀ {members : List (String × Value)} {t : List Char}, MembersText members t →
    ∀ (stack : List Frame) (acc : List (String × Value)), stack.length + 1 + Value.membersDepth members ≤ maxDepth →
    Reads (¬∀ p ∈ members, p.2.NumberFree) ⟨stack, .afterMember (members.reverse ++ acc)⟩
      (run ⟨stack, .nextMember acc⟩ t)
  | [p], _, .last h, stack, acc, hdepth => by
    have hmember := reads_member h stack acc (by
      simp only [Value.membersDepth] at hdepth
      omega)
    exact hmember.imp fun hf hall => hf (hall p (List.mem_singleton.2 rfl))
  | p :: ps, _, .cons h hs, stack, acc, hdepth => by
    simp only [Value.membersDepth] at hdepth
    have hmember := reads_member h stack acc (by omega)
    have hrest := reads_members hs stack (p :: acc) (by omega)
    have hcomma : stepAfter ⟨stack, .afterMember (p :: acc)⟩ ',' = some ⟨stack, .nextMember (p :: acc)⟩ := rfl
    rw [run_append, List.reverse_cons, List.append_assoc]
    refine (hmember.andThen (behind_member stack (p :: acc)) (by simp) hcomma hrest).imp ?_
    rintro (hf | hf) hall
    · exact hf (hall p List.mem_cons_self)
    · exact hf fun q hq => hall q (List.mem_cons_of_mem p hq)

end

end Reader

/-! ## Documents -/

/-- a document is read as its value, unless a number in it is too large -/
theorem read_document_or {v : Value} {text : String} (h : DocumentText v text) (hdepth : v.depth ≤ maxDepth) :
    read text = .ok ⟨v, false⟩ ∨ (¬v.NumberFree ∧ read text = .error .malformed) := by
  have hreads := Reader.reads_element h [] (by simpa using hdepth)
  generalize hrun : Reader.run ⟨[], .value⟩ text.toList = o at hreads
  have hfold : text.toList.foldlM Reader.step Reader.start = o := hrun
  unfold read
  rw [hfold]
  cases hreads with
  | refused hf => exact .inr ⟨hf, rfl⟩
  | reached => exact .inl rfl
  | @pending stack n hf hn hq =>
    have htop : stack = [] ∧ v = .number := by
      cases stack with
      | nil => simpa [Reader.finish, eq_comm] using hq
      | cons frame stack => cases frame <;> simp [Reader.finish] at hq
    obtain ⟨rfl, rfl⟩ := htop
    simp only [Reader.result, hn]
    cases n.tooLarge with
    | true => exact .inr ⟨hf, rfl⟩
    | false => exact .inl rfl

/-- **A document without numbers is read as its value**, however it is spelled. -/
theorem read_document {v : Value} {text : String} (h : DocumentText v text) (hdepth : v.depth ≤ maxDepth)
    (hfree : v.NumberFree) : read text = .ok ⟨v, false⟩ := by
  rcases read_document_or h hdepth with hread | ⟨hnumber, -⟩
  · exact hread
  · exact absurd hfree hnumber

end PageShell.Json
