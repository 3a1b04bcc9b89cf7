import ImpLang.Proofs.Command.Sequence
import ImpLang.Proofs.Expr.Display
import ImpLang.Proofs.Program.Canonical

namespace ImpLang

variable {T : Type} {x y : List Char} {depth : Nat}

namespace Command

def indentChars (cs : List Char) : List Char :=
  cs.flatMap fun c => if c = '\n' then ['\n', '\t'] else [c]

theorem toList_indent (s : String) : (indent s).toList = indentChars s.toList := by
  simp [indent, indentChars]

@[simp] theorem indentChars_append : indentChars (x ++ y) = indentChars x ++ indentChars y :=
  List.flatMap_append

@[simp] theorem indentChars_of_not_mem (h : '\n' ∉ x) : indentChars x = x := by
  calc indentChars x = x.flatMap fun c => [c] :=
        List.flatMap_congr fun c hc => if_neg (ne_of_mem_of_not_mem hc h)
    _ = x := List.flatMap_singleton' x

@[simp] theorem indentChars_cons {c : Char} (h : c ≠ '\n') :
    indentChars (c :: x) = c :: indentChars x := by
  change (if c = '\n' then ['\n', '\t'] else [c]) ++ indentChars x = c :: indentChars x
  rw [if_neg h, List.singleton_append]

@[simp] theorem indentChars_lead {word : String} (h : '\n' ∉ word.toList) :
    indentChars (lead word x) = lead word (indentChars x) := by
  rw [lead, indentChars_cons (by decide), indentChars_append, indentChars_of_not_mem h,
    indentChars_cons (by decide), lead]

def newline (depth : Nat) : List Char := '\n' :: List.replicate depth '\t'

@[simp] theorem indentChars_newline (depth : Nat) :
    indentChars (newline depth) = newline (depth + 1) := by
  have htabs : '\n' ∉ List.replicate depth '\t' := by simp
  change '\n' :: '\t' :: indentChars (List.replicate depth '\t') = newline (depth + 1)
  rw [indentChars_of_not_mem htabs, newline, List.replicate_succ]

def HasIdentifiers : Command T → Prop
  | assign x e => IsIdentifier x ∧ e.HasIdentifiers
  | seq c d => c.HasIdentifiers ∧ d.HasIdentifiers
  | ifThen b c => b.HasIdentifiers ∧ c.HasIdentifiers
  | ifElse b c d => b.HasIdentifiers ∧ c.HasIdentifiers ∧ d.HasIdentifiers
  | loop b c => b.HasIdentifiers ∧ c.HasIdentifiers
  | print e => e.HasIdentifiers

theorem isSeq_of_mem_statements {c s : Command T} (h : s ∈ c.statements) : s.isSeq = false := by
  induction c with
  | seq c d ihc ihd => exact (List.mem_append.1 h).elim ihc ihd
  | _ =>
    obtain rfl := List.mem_singleton.1 h
    rfl

theorem HasIdentifiers.of_mem_statements {c s : Command T} (hc : c.HasIdentifiers)
    (h : s ∈ c.statements) : s.HasIdentifiers := by
  induction c with
  | seq c d ihc ihd => exact (List.mem_append.1 h).elim (ihc hc.1) (ihd hc.2)
  | _ =>
    obtain rfl := List.mem_singleton.1 h
    exact hc

/-- Nowhere a sequence is the second part of a sequence. -/
def LeftGrouped : Command T → Prop
  | seq c d => c.LeftGrouped ∧ d.LeftGrouped ∧ d.isSeq = false
  | ifThen _ c => c.LeftGrouped
  | ifElse _ c d => c.LeftGrouped ∧ d.LeftGrouped
  | loop _ c => c.LeftGrouped
  | assign _ _ => True
  | print _ => True

theorem append_of_isSeq {d : Command T} (h : d.isSeq = false) (c : Command T) :
    c.append d = seq c d := by
  cases d with
  | seq => cases h
  | _ => rfl

theorem LeftGrouped.regroup {c : Command T} (h : c.LeftGrouped) : c.regroup = c := by
  induction c with
  | seq c d ihc ihd => rw [Command.regroup, ihc h.1, ihd h.2.1, append_of_isSeq h.2.2]
  | ifThen b c ih | loop b c ih => rw [Command.regroup, ih h]
  | ifElse b c d ihc ihd => rw [Command.regroup, ihc h.1, ihd h.2]
  | _ => rfl

def head : Command T → String
  | assign _ _ => "assign"
  | seq c _ => c.head
  | ifThen _ _ => "if"
  | ifElse _ _ _ => "if"
  | loop _ _ => "loop"
  | print _ => "print"

theorem space_not_mem_head (s : Command T) : ' ' ∉ s.head.toList := by
  induction s with
  | seq c d ihc _ => exact ihc
  | _ => simp [head]

variable [Number T]

def branch (depth : Nat) (body : List Char → List Char) (rest : List Char) : List Char :=
  newline depth ++ '(' :: body (')' :: rest)

theorem paren_ne_branch {body : List Char → List Char} :
    ')' :: x ≠ branch depth body y := by
  simp [branch, newline]

/-- The text of a command in front of `rest`, at a depth of so many tabs. -/
def text (depth : Nat) : Command T → List Char → List Char
  | assign x e, rest => lead "assign" (x.toList ++ ' ' :: (e.render.toList ++ ')' :: rest))
  | seq c d, rest => c.text depth (newline depth ++ d.text depth rest)
  | ifThen b c, rest =>
    lead "if" (b.render.toList ++ branch (depth + 1) (c.text (depth + 1)) (')' :: rest))
  | ifElse b c d, rest =>
    lead "if" (b.render.toList ++ branch (depth + 1) (c.text (depth + 1))
      (branch (depth + 1) (d.text (depth + 1)) (')' :: rest)))
  | loop b c, rest =>
    lead "loop" (lead "while" (b.render.toList ++ ')' ::
      (newline (depth + 1) ++ c.text (depth + 1) (')' :: rest))))
  | print e, rest => lead "print" (e.render.toList ++ ')' :: rest)

theorem text_append (c : Command T) (x y : List Char) :
    c.text depth x ++ y = c.text depth (x ++ y) := by
  induction c generalizing depth x with
  | assign | print => simp [text, lead]
  | seq c d ihc ihd => simp [text, ihc, ihd]
  | ifThen b c ih | loop b c ih => simp [text, lead, branch, ih]
  | ifElse b c d ihc ihd => simp [text, lead, branch, ihc, ihd]

theorem indentChars_text {c : Command T} (h : c.HasIdentifiers) (x : List Char) :
    indentChars (c.text depth x) = c.text (depth + 1) (indentChars x) := by
  induction c generalizing depth x with
  | assign z e =>
    have hz := (IsAtom.of_isIdentifier h.1).not_mem (c := '\n') (by decide)
    simp [text, hz, Arith.newline_not_mem_render h.2]
  | seq c d ihc ihd => simp [text, ihc h.1, ihd h.2]
  | ifThen b c ih | loop b c ih => simp [text, branch, Boolean.newline_not_mem_render h.1, ih h.2]
  | ifElse b c d ihc ihd =>
    simp [text, branch, Boolean.newline_not_mem_render h.1, ihc h.2.1, ihd h.2.2]
  | print e => simp [text, Arith.newline_not_mem_render h]

theorem toList_indent_render {c : Command T} (h : c.HasIdentifiers)
    (hc : c.render.toList = c.text 0 []) (x : List Char) :
    (indent c.render).toList ++ x = c.text 1 x := by
  rw [toList_indent, hc, indentChars_text h, text_append]
  rfl

theorem toList_render {c : Command T} (h : c.HasIdentifiers) : c.render.toList = c.text 0 [] := by
  induction c with
  | assign z e => simp [render, text, lead]
  | seq c d ihc ihd => simp [render, text, newline, ihc h.1, ihd h.2, text_append]
  | ifThen b c ih | loop b c ih =>
    simp [render, text, lead, branch, newline, toList_indent_render h.2 (ih h.2)]
  | ifElse b c d ihc ihd =>
    simp [render, text, lead, branch, newline, toList_indent_render h.2.1 (ihc h.2.1),
      toList_indent_render h.2.2 (ihd h.2.2), text_append]
  | print e => simp [render, text, lead]

theorem toList_render_append {c : Command T} (h : c.HasIdentifiers) (x : List Char) :
    c.render.toList ++ x = c.text 0 x := by
  rw [toList_render h, text_append, List.nil_append]

def rows (depth : Nat) (l : List (Command T)) (rest : List Char) : List Char :=
  l.foldr (fun s x => newline depth ++ s.text depth x) rest

theorem newline_append_text (c : Command T) (x : List Char) :
    newline depth ++ c.text depth x = rows depth c.statements x := by
  induction c generalizing x with
  | seq c d ihc ihd =>
    rw [text, ihc, ihd, rows, rows, rows, statements, List.foldr_append]
  | _ => rfl

/-- A statement whose text can be told from what stands behind it. Its lists of statements are
known up to their grouping only. -/
def Separate (s : Command T) : Prop :=
  ∀ ⦃depth x y⦄ ⦃s' : Command T⦄, s'.HasIdentifiers → s'.isSeq = false →
    s.text depth x = s'.text depth y → s.regroup = s'.regroup ∧ x = y

theorem rows_inj {l m : List (Command T)} (hl : ∀ s ∈ l, s.Separate)
    (hm : ∀ s ∈ m, s.HasIdentifiers ∧ s.isSeq = false)
    (h : rows depth l (')' :: x) = rows depth m (')' :: y)) :
    l.map regroup = m.map regroup ∧ x = y := by
  induction l generalizing m with
  | nil =>
    cases m with
    | nil => exact ⟨rfl, (List.cons.inj h).2⟩
    | cons t m => simp [rows, newline] at h
  | cons s l ih =>
    cases m with
    | nil => simp [rows, newline] at h
    | cons t m =>
      obtain ⟨hs, hl⟩ := List.forall_mem_cons.1 hl
      obtain ⟨⟨ht, htseq⟩, hm⟩ := List.forall_mem_cons.1 hm
      obtain ⟨hst, hrest⟩ := hs ht htseq (List.append_cancel_left h)
      obtain ⟨hlm, hxy⟩ := ih hl hm hrest
      exact ⟨by rw [List.map_cons, List.map_cons, hst, hlm], hxy⟩

theorem body_inj {c d : Command T} (hc : ∀ s ∈ c.statements, s.Separate) (hd : d.HasIdentifiers)
    (h : c.text depth (')' :: x) = d.text depth (')' :: y)) : c.regroup = d.regroup ∧ x = y := by
  -- With the end of a line in front, a text does not show how its statements are grouped.
  have hrows : rows depth c.statements (')' :: x) = rows depth d.statements (')' :: y) := by
    rw [← newline_append_text, ← newline_append_text, h]
  obtain ⟨hstatements, hxy⟩ :=
    rows_inj hc (fun s hs => ⟨hd.of_mem_statements hs, isSeq_of_mem_statements hs⟩) hrows
  exact ⟨regroup_eq_of_statements hstatements, hxy⟩

theorem exists_text_eq_lead {s : Command T} (hs : s.isSeq = false) (x : List Char) :
    ∃ y, s.text depth x = lead s.head y := by
  cases s with
  | seq => cases hs
  | _ => exact ⟨_, rfl⟩

theorem head_eq_of_text {s s' : Command T} (hs : s.isSeq = false) (hs' : s'.isSeq = false)
    (h : s.text depth x = s'.text depth y) : s.head = s'.head := by
  obtain ⟨u, hu⟩ := exists_text_eq_lead hs x
  obtain ⟨v, hv⟩ := exists_text_eq_lead hs' y
  rw [hu, hv] at h
  exact (lead_inj s.space_not_mem_head s'.space_not_mem_head h).1

variable {b : Boolean T} {c d : Command T}

theorem assign_separate {z : String} {e : Arith T} (hz : IsIdentifier z) (he : e.HasIdentifiers) :
    (assign z e).Separate := by
  intro depth x y s' hs' hseq h
  cases s' with
  | assign z' e' =>
    obtain ⟨-, hname⟩ := lead_inj (by decide) (by decide) h
    obtain ⟨hzz, hvalue⟩ := (IsAtom.of_isIdentifier hz).append_inj (c := ' ')
      (.of_isIdentifier hs'.1) (by decide) hname
    obtain rfl := String.toList_inj.1 hzz
    obtain ⟨rfl, hxy⟩ := Arith.render_append_inj (c := ')') he hs'.2 (by decide) hvalue
    exact ⟨rfl, hxy⟩
  | seq => cases hseq
  | ifThen | ifElse | loop | print =>
    have hhead := head_eq_of_text rfl hseq h
    simp [head] at hhead

theorem print_separate {e : Arith T} (he : e.HasIdentifiers) : (print e).Separate := by
  intro depth x y s' hs' hseq h
  cases s' with
  | print e' =>
    obtain ⟨-, hvalue⟩ := lead_inj (by decide) (by decide) h
    obtain ⟨rfl, hxy⟩ := Arith.render_append_inj (c := ')') he hs' (by decide) hvalue
    exact ⟨rfl, hxy⟩
  | seq => cases hseq
  | assign | ifThen | ifElse | loop =>
    have hhead := head_eq_of_text rfl hseq h
    simp [head] at hhead

theorem loop_separate (hb : b.HasIdentifiers) (hc : ∀ s ∈ c.statements, s.Separate) :
    (loop b c).Separate := by
  intro depth x y s' hs' hseq h
  cases s' with
  | loop b' c' =>
    obtain ⟨-, hwhile⟩ := lead_inj (by decide) (by decide) h
    obtain ⟨-, hcondition⟩ := lead_inj (by decide) (by decide) hwhile
    obtain ⟨rfl, hbody⟩ := Boolean.render_append_inj hb hs'.1 hcondition
    obtain ⟨hbody, hxy⟩ := body_inj hc hs'.2 (List.append_cancel_left (List.cons.inj hbody).2)
    exact ⟨congrArg (loop b) hbody, hxy⟩
  | seq => cases hseq
  | assign | ifThen | ifElse | print =>
    have hhead := head_eq_of_text rfl hseq h
    simp [head] at hhead

theorem branch_inj {c' : Command T} (hc : ∀ s ∈ c.statements, s.Separate)
    (hc' : c'.HasIdentifiers)
    (h : branch depth (c.text depth) x = branch depth (c'.text depth) y) :
    c.regroup = c'.regroup ∧ x = y :=
  body_inj hc hc' (List.cons.inj (List.append_cancel_left h)).2

theorem condition_inj {b' : Boolean T} {c' : Command T} (hb : b.HasIdentifiers)
    (hb' : b'.HasIdentifiers) (hc : ∀ s ∈ c.statements, s.Separate) (hc' : c'.HasIdentifiers)
    (h : lead "if" (b.render.toList ++ branch depth (c.text depth) x) =
      lead "if" (b'.render.toList ++ branch depth (c'.text depth) y)) :
    b = b' ∧ c.regroup = c'.regroup ∧ x = y := by
  obtain ⟨-, hcondition⟩ := lead_inj (by decide) (by decide) h
  obtain ⟨hbb, hbody⟩ := Boolean.render_append_inj hb hb' hcondition
  exact ⟨hbb, branch_inj hc hc' hbody⟩

theorem ifThen_separate (hb : b.HasIdentifiers) (hc : ∀ s ∈ c.statements, s.Separate) :
    (ifThen b c).Separate := by
  intro depth x y s' hs' hseq h
  cases s' with
  | ifThen b' c' =>
    obtain ⟨rfl, hcc, hend⟩ := condition_inj hb hs'.1 hc hs'.2 h
    exact ⟨congrArg (ifThen b) hcc, (List.cons.inj hend).2⟩
  | ifElse b' c' d' =>
    obtain ⟨-, -, hend⟩ := condition_inj hb hs'.1 hc hs'.2.1 h
    exact absurd hend paren_ne_branch
  | seq => cases hseq
  | assign | loop | print =>
    have hhead := head_eq_of_text rfl hseq h
    simp [head] at hhead

theorem ifElse_separate (hb : b.HasIdentifiers) (hc : ∀ s ∈ c.statements, s.Separate)
    (hd : ∀ s ∈ d.statements, s.Separate) : (ifElse b c d).Separate := by
  intro depth x y s' hs' hseq h
  cases s' with
  | ifThen b' c' =>
    obtain ⟨-, -, hend⟩ := condition_inj hb hs'.1 hc hs'.2 h
    exact absurd hend.symm paren_ne_branch
  | ifElse b' c' d' =>
    obtain ⟨rfl, hcc, hother⟩ := condition_inj hb hs'.1 hc hs'.2.1 h
    obtain ⟨hdd, hend⟩ := branch_inj hd hs'.2.2 hother
    exact ⟨by rw [regroup, regroup, hcc, hdd], (List.cons.inj hend).2⟩
  | seq => cases hseq
  | assign | loop | print =>
    have hhead := head_eq_of_text rfl hseq h
    simp [head] at hhead

/-- By induction on the command; the parts of a sequence hand on their own statements. -/
theorem separate_of_mem_statements {c s : Command T} (hc : c.HasIdentifiers)
    (h : s ∈ c.statements) : s.Separate := by
  induction c generalizing s with
  | seq c d ihc ihd => exact (List.mem_append.1 h).elim (ihc hc.1) (ihd hc.2)
  | assign z e =>
    obtain rfl := List.mem_singleton.1 h
    exact assign_separate hc.1 hc.2
  | ifThen b c ih =>
    obtain rfl := List.mem_singleton.1 h
    exact ifThen_separate hc.1 fun _ => ih hc.2
  | ifElse b c d ihc ihd =>
    obtain rfl := List.mem_singleton.1 h
    exact ifElse_separate hc.1 (fun _ => ihc hc.2.1) fun _ => ihd hc.2.2
  | loop b c ih =>
    obtain rfl := List.mem_singleton.1 h
    exact loop_separate hc.1 fun _ => ih hc.2
  | print e =>
    obtain rfl := List.mem_singleton.1 h
    exact print_separate hc

theorem regroup_eq_of_render (hc : c.HasIdentifiers) (hd : d.HasIdentifiers)
    (h : c.render = d.render) : c.regroup = d.regroup := by
  -- A parenthesis behind them makes the programs bodies.
  have htext : c.text 0 [')'] = d.text 0 [')'] := by
    calc c.text 0 [')'] = c.render.toList ++ [')'] := (toList_render_append hc _).symm
      _ = d.render.toList ++ [')'] := by rw [h]
      _ = d.text 0 [')'] := toList_render_append hd _
  exact (body_inj (fun _ => separate_of_mem_statements hc) hd htext).1

theorem render_append (c d : Command T) :
    (c.append d).render = c.render ++ "\n" ++ d.render := by
  induction d generalizing c with
  | seq d e ihd ihe => rw [append_seq, ihe, ihd, render]; simp only [String.append_assoc]
  | _ => rfl

theorem render_regroup (c : Command T) : c.regroup.render = c.render := by
  induction c with
  | seq c d ihc ihd => rw [regroup, render_append, ihc, ihd, render]
  | ifThen b c ih | loop b c ih => rw [regroup, render, ih, render]
  | ifElse b c d ihc ihd => rw [regroup, render, ihc, ihd, render]
  | _ => rfl

end Command

theorem Arith.Canonical.hasIdentifiers [Number T] {e : Arith T} (h : e.Canonical) :
    e.HasIdentifiers := by
  induction e with
  | lit n => trivial
  | var z => exact .of_isWord (Lexer.isWord_of_isLexeme_id h)
  | binary op l r ihl ihr => exact ⟨ihl h.1, ihr h.2⟩

theorem Boolean.Canonical.hasIdentifiers [Number T] {b : Boolean T} (h : b.Canonical) :
    b.HasIdentifiers := by
  induction b with
  | compare rel l r => exact ⟨h.1.hasIdentifiers, h.2.hasIdentifiers⟩
  | not b ih => exact ih h
  | binary op l r ihl ihr => exact ⟨ihl h.1, ihr h.2⟩

namespace Command

variable [Number T] {c : Command T}

theorem Canonical.hasIdentifiers (h : c.Canonical) : c.HasIdentifiers := by
  induction c with
  | assign z e => exact ⟨.of_isWord (Lexer.isWord_of_isLexeme_id h.1), h.2.hasIdentifiers⟩
  | seq c d ihc ihd => exact ⟨ihc h.1, ihd h.2.1⟩
  | ifThen b c ih | loop b c ih => exact ⟨h.1.hasIdentifiers, ih h.2⟩
  | ifElse b c d ihc ihd => exact ⟨h.1.hasIdentifiers, ihc h.2.1, ihd h.2.2⟩
  | print e => exact Arith.Canonical.hasIdentifiers h

theorem Canonical.leftGrouped (h : c.Canonical) : c.LeftGrouped := by
  induction c with
  | seq c d ihc ihd => exact ⟨ihc h.1, ihd h.2.1, h.2.2⟩
  | ifThen b c ih | loop b c ih => exact ih h.2
  | ifElse b c d ihc ihd => exact ⟨ihc h.2.1, ihd h.2.2⟩
  | _ => trivial

/-- Two commands have the same text exactly if nothing but the grouping of their sequences differs,
and two programs that are read from source exactly if they are equal. -/
theorem render_eq_iff (T : Type) [Number T] :
    (∀ c d : Command T, c.HasIdentifiers → d.HasIdentifiers →
      (c.render = d.render ↔ c.regroup = d.regroup)) ∧
    ∀ (s t : String) (c d : Command T), ofSource s = .ok c → ofSource t = .ok d →
      (c.render = d.render ↔ c = d) := by
  refine ⟨fun c d hc hd => ⟨regroup_eq_of_render hc hd, fun h => ?_⟩,
    fun s t c d hs ht => ⟨fun h => ?_, congrArg render⟩⟩
  · rw [← render_regroup c, h, render_regroup]
  · have hc := canonical_of_ofSource hs
    have hd := canonical_of_ofSource ht
    have hregroup := regroup_eq_of_render hc.hasIdentifiers hd.hasIdentifiers h
    rwa [hc.leftGrouped.regroup, hd.leftGrouped.regroup] at hregroup

/-- Two groupings of one list in the body of a loop, and a negative number beside a difference. -/
theorem render_eq_iff_loop_body :
    let b : Boolean Int64 := .compare .lt (.var "x") (.lit 3)
    let p : Command Int64 := .print (.lit (-1))
    let q : Command Int64 := .print (.binary .sub (.lit 0) (.lit 1))
    (loop b (seq p (seq q p))).render = (loop b (seq (seq p q) p)).render ∧
      (loop b (seq p q)).render ≠ (loop b (seq p p)).render := by
  intro b p q
  have hx : IsIdentifier "x" := ⟨'x', [], rfl, by decide, List.forall_mem_singleton.2 (by decide)⟩
  have hb : b.HasIdentifiers := ⟨hx, trivial⟩
  have hp : p.HasIdentifiers := trivial
  have hq : q.HasIdentifiers := ⟨trivial, trivial⟩
  obtain ⟨hrender, -⟩ := render_eq_iff Int64
  constructor
  · have hleft : (loop b (seq (seq p q) p)).HasIdentifiers := ⟨hb, ⟨hp, hq⟩, hp⟩
    have hright : (loop b (seq p (seq q p))).HasIdentifiers := ⟨hb, hp, hq, hp⟩
    exact (hrender _ _ hright hleft).2 rfl
  · have hpq : (loop b (seq p q)).HasIdentifiers := ⟨hb, hp, hq⟩
    have hpp : (loop b (seq p p)).HasIdentifiers := ⟨hb, hp, hp⟩
    intro h
    cases (hrender _ _ hpq hpp).1 h

end Command

end ImpLang
