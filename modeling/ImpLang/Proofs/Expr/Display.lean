import Mathlib
import ImpLang.Expr.Boolean
import ImpLang.Proofs.Store.Names

namespace ImpLang

variable {T : Type} {c : Char} {u v x y : List Char}

theorem append_mark_inj (hu : c ∉ u) (hv : c ∉ v) (h : u ++ c :: x = v ++ c :: y) :
    u = v ∧ x = y := by
  obtain ⟨w, rfl, hw⟩ | ⟨w, rfl, hw⟩ := List.append_eq_append_iff.1 h
  · cases w with
    | nil => exact ⟨(List.append_nil u).symm, (List.cons.inj hw).2⟩
    | cons d w =>
      obtain ⟨rfl, -⟩ := List.cons.inj hw
      exact absurd (List.mem_append_right u List.mem_cons_self) hv
  · cases w with
    | nil => exact ⟨List.append_nil v, (List.cons.inj hw).2.symm⟩
    | cons d w =>
      obtain ⟨rfl, -⟩ := List.cons.inj hw
      exact absurd (List.mem_append_right v List.mem_cons_self) hu

def lead (word : String) (rest : List Char) : List Char := '(' :: (word.toList ++ ' ' :: rest)

theorem lead_inj {word word' : String} (hw : ' ' ∉ word.toList) (hw' : ' ' ∉ word'.toList)
    (h : lead word x = lead word' y) : word = word' ∧ x = y := by
  obtain ⟨hword, hxy⟩ := append_mark_inj hw hw' (List.cons.inj h).2
  exact ⟨String.toList_inj.1 hword, hxy⟩

/-- Letters, digits and underscores, and no digit in front. A name that is read from a source text
also begins with no underscore. -/
def IsIdentifier (x : String) : Prop :=
  ∃ c cs, x.toList = c :: cs ∧ c.isDigit = false ∧ ∀ d ∈ c :: cs, Lexer.isWordChar d

theorem IsIdentifier.of_isWord {x : String} (h : Lexer.IsWord x.toList) : IsIdentifier x := by
  obtain ⟨c, cs, hx, hc, hcs⟩ := h
  refine ⟨c, cs, hx, ?_, List.forall_mem_cons.2 ⟨Lexer.isWordChar_of_isAlpha hc, hcs⟩⟩
  by_contra hd
  rw [Bool.not_eq_false] at hd
  rw [Lexer.isAlpha_of_isDigit hd] at hc
  cases hc

def isAtomChar (c : Char) : Bool := Lexer.isWordChar c || c == '-'

structure IsAtom (cs : List Char) : Prop where
  ne_nil : cs ≠ []
  chars : ∀ c ∈ cs, isAtomChar c

namespace IsAtom

theorem not_mem (h : IsAtom u) (hc : isAtomChar c = false) : c ∉ u := by
  intro hm
  rw [h.chars c hm] at hc
  cases hc

theorem append_inj (hu : IsAtom u) (hv : IsAtom v) (hc : isAtomChar c = false)
    (h : u ++ c :: x = v ++ c :: y) : u = v ∧ x = y :=
  append_mark_inj (hu.not_mem hc) (hv.not_mem hc) h

theorem ne_lead {word : String} (h : IsAtom u) : u ++ x ≠ lead word y := by
  intro heq
  obtain ⟨d, u, rfl⟩ := List.exists_cons_of_ne_nil h.ne_nil
  obtain ⟨rfl, -⟩ := List.cons.inj heq
  exact h.not_mem (c := '(') (by decide) List.mem_cons_self

theorem of_wordChars (hne : u ≠ []) (hu : ∀ c ∈ u, Lexer.isWordChar c) : IsAtom u :=
  ⟨hne, fun c hc => by simp [isAtomChar, hu c hc]⟩

theorem of_digits (hne : u ≠ []) (hu : ∀ c ∈ u, c.isDigit) : IsAtom u :=
  of_wordChars hne fun c hc => Lexer.isWordChar_of_isDigit (hu c hc)

theorem of_isIdentifier {x : String} (h : IsIdentifier x) : IsAtom x.toList := by
  obtain ⟨c, cs, hx, -, hcs⟩ := h
  rw [hx]
  exact of_wordChars (List.cons_ne_nil c cs) hcs

theorem render [Number T] (n : T) : IsAtom (Number.render n).toList := by
  rw [Number.render]
  by_cases h : 0 ≤ Number.toInt n
  · rw [Literal.toList_repr_of_nonneg h]
    exact of_digits Nat.toDigits_ne_nil (Literal.isDigit_toDigits _)
  · rw [Literal.toList_repr_of_neg h]
    have hd := of_digits Nat.toDigits_ne_nil (Literal.isDigit_toDigits (-Number.toInt n).toNat)
    exact ⟨List.cons_ne_nil _ _, List.forall_mem_cons.2 ⟨by decide, hd.chars⟩⟩

end IsAtom

namespace Number

variable [Number T] {a b : T}

theorem render_inj (h : render a = render b) : a = b := by
  have ha := Literal.signed?_repr (toInt a)
  have hb := Literal.signed?_repr (toInt b)
  rw [show (toInt a).repr = (toInt b).repr from h, hb] at ha
  exact (toInt_inj (Option.some.inj ha)).symm

theorem render_ne_identifier {x : String} (hx : IsIdentifier x) : render a ≠ x := by
  rintro rfl
  obtain ⟨c, cs, htext, hc, hcs⟩ := hx
  rw [render] at htext
  by_cases h : 0 ≤ toInt a
  · rw [Literal.toList_repr_of_nonneg h] at htext
    rw [Literal.isDigit_toDigits (toInt a).toNat c (by simp [htext])] at hc
    cases hc
  · rw [Literal.toList_repr_of_neg h] at htext
    obtain ⟨rfl, -⟩ := List.cons.inj htext
    exact absurd (hcs '-' List.mem_cons_self) (by decide)

end Number

namespace ArithOp

theorem symbol_inj {op op' : ArithOp} (h : op.symbol = op'.symbol) : op = op' := by
  revert h
  cases op <;> cases op' <;> decide

theorem space_not_mem (op : ArithOp) : ' ' ∉ op.symbol.toList := by
  cases op <;> decide

end ArithOp

namespace Relation

theorem symbol_inj {rel rel' : Relation} (h : rel.symbol = rel'.symbol) : rel = rel' := by
  revert h
  cases rel <;> cases rel' <;> decide

theorem space_not_mem (rel : Relation) : ' ' ∉ rel.symbol.toList := by
  cases rel <;> decide

theorem symbol_ne_not (rel : Relation) : rel.symbol ≠ "not" := by
  cases rel <;> decide

theorem symbol_ne_connective (rel : Relation) (op : Connective) : rel.symbol ≠ op.symbol := by
  cases rel <;> cases op <;> decide

end Relation

namespace Connective

theorem symbol_inj {op op' : Connective} (h : op.symbol = op'.symbol) : op = op' := by
  revert h
  cases op <;> cases op' <;> decide

theorem space_not_mem (op : Connective) : ' ' ∉ op.symbol.toList := by
  cases op <;> decide

theorem symbol_ne_not (op : Connective) : op.symbol ≠ "not" := by
  cases op <;> decide

end Connective

namespace Arith

def HasIdentifiers : Arith T → Prop
  | lit _ => True
  | var x => IsIdentifier x
  | binary _ l r => l.HasIdentifiers ∧ r.HasIdentifiers

variable [Number T]

theorem toList_render_binary (op : ArithOp) (l r : Arith T) (x : List Char) :
    (binary op l r).render.toList ++ x =
      lead op.symbol (l.render.toList ++ ' ' :: (r.render.toList ++ ')' :: x)) := by
  simp [render, lead]

theorem newline_not_mem_render {e : Arith T} (h : e.HasIdentifiers) :
    '\n' ∉ e.render.toList := by
  induction e with
  | lit n => exact (IsAtom.render n).not_mem (by decide)
  | var z => exact (IsAtom.of_isIdentifier h).not_mem (by decide)
  | binary op l r ihl ihr =>
    have hop : '\n' ∉ op.symbol.toList := by cases op <;> decide
    simp [render, hop, ihl h.1, ihr h.2]

/-- The text of an expression in front of a mark that no number and no name holds. -/
theorem render_append_inj {e f : Arith T} (he : e.HasIdentifiers) (hf : f.HasIdentifiers)
    (hc : isAtomChar c = false) (h : e.render.toList ++ c :: x = f.render.toList ++ c :: y) :
    e = f ∧ x = y := by
  induction e generalizing f c x y with
  | lit n =>
    cases f with
    | lit m =>
      obtain ⟨htext, hxy⟩ := (IsAtom.render n).append_inj (.render m) hc h
      exact ⟨congrArg lit (Number.render_inj (String.toList_inj.1 htext)), hxy⟩
    | var z =>
      obtain ⟨htext, -⟩ := (IsAtom.render n).append_inj (.of_isIdentifier hf) hc h
      exact absurd (String.toList_inj.1 htext) (Number.render_ne_identifier hf)
    | binary op l r =>
      rw [toList_render_binary] at h
      exact absurd h (IsAtom.render n).ne_lead
  | var z =>
    have hz := IsAtom.of_isIdentifier he
    cases f with
    | lit m =>
      obtain ⟨htext, -⟩ := hz.append_inj (.render m) hc h
      exact absurd (String.toList_inj.1 htext).symm (Number.render_ne_identifier he)
    | var z' =>
      obtain ⟨htext, hxy⟩ := hz.append_inj (.of_isIdentifier hf) hc h
      exact ⟨congrArg var (String.toList_inj.1 htext), hxy⟩
    | binary op l r =>
      rw [toList_render_binary] at h
      exact absurd h hz.ne_lead
  | binary op l r ihl ihr =>
    cases f with
    | lit m =>
      rw [toList_render_binary] at h
      exact absurd h.symm (IsAtom.render m).ne_lead
    | var z =>
      rw [toList_render_binary] at h
      exact absurd h.symm (IsAtom.of_isIdentifier hf).ne_lead
    | binary op' l' r' =>
      rw [toList_render_binary, toList_render_binary] at h
      obtain ⟨hop, hl⟩ := lead_inj op.space_not_mem op'.space_not_mem h
      obtain rfl := ArithOp.symbol_inj hop
      obtain ⟨rfl, hr⟩ := ihl he.1 hf.1 (c := ' ') (by decide) hl
      obtain ⟨rfl, hrest⟩ := ihr he.2 hf.2 (c := ')') (by decide) hr
      exact ⟨rfl, (List.cons.inj hrest).2⟩

end Arith

namespace Boolean

def HasIdentifiers : Boolean T → Prop
  | compare _ l r => l.HasIdentifiers ∧ r.HasIdentifiers
  | not b => b.HasIdentifiers
  | binary _ l r => l.HasIdentifiers ∧ r.HasIdentifiers

def head : Boolean T → String
  | compare rel _ _ => rel.symbol
  | not _ => "not"
  | binary op _ _ => op.symbol

theorem space_not_mem_head (b : Boolean T) : ' ' ∉ b.head.toList := by
  cases b with
  | compare rel l r => exact rel.space_not_mem
  | not b => exact (by decide : ' ' ∉ "not".toList)
  | binary op l r => exact op.space_not_mem

variable [Number T]

def operands : Boolean T → List Char
  | compare _ l r => l.render.toList ++ ' ' :: r.render.toList
  | not b => b.render.toList
  | binary _ l r => l.render.toList ++ ' ' :: r.render.toList

theorem toList_render (b : Boolean T) (x : List Char) :
    b.render.toList ++ x = lead b.head (b.operands ++ ')' :: x) := by
  cases b <;> simp [render, head, operands, lead]

theorem newline_not_mem_render {b : Boolean T} (h : b.HasIdentifiers) :
    '\n' ∉ b.render.toList := by
  induction b with
  | compare rel l r =>
    have hrel : '\n' ∉ rel.symbol.toList := by cases rel <;> decide
    simp [render, hrel, Arith.newline_not_mem_render h.1, Arith.newline_not_mem_render h.2]
  | not b ih => simp [render, ih h]
  | binary op l r ihl ihr =>
    have hop : '\n' ∉ op.symbol.toList := by cases op <;> decide
    simp [render, hop, ihl h.1, ihr h.2]

theorem head_and_operands_of_render {b d : Boolean T}
    (h : b.render.toList ++ x = d.render.toList ++ y) :
    b.head = d.head ∧ b.operands ++ ')' :: x = d.operands ++ ')' :: y := by
  rw [toList_render, toList_render] at h
  exact lead_inj b.space_not_mem_head d.space_not_mem_head h

/-- The text of a condition ends with its own parenthesis, so nothing is asked of the rest. -/
theorem render_append_inj {b d : Boolean T} (hb : b.HasIdentifiers) (hd : d.HasIdentifiers)
    (h : b.render.toList ++ x = d.render.toList ++ y) : b = d ∧ x = y := by
  induction b generalizing d x y with
  | compare rel l r =>
    obtain ⟨hhead, hl⟩ := head_and_operands_of_render h
    cases d with
    | compare rel' l' r' =>
      obtain rfl := Relation.symbol_inj hhead
      simp only [operands, List.append_assoc, List.cons_append] at hl
      obtain ⟨rfl, hr⟩ := Arith.render_append_inj (c := ' ') hb.1 hd.1 (by decide) hl
      obtain ⟨rfl, hxy⟩ := Arith.render_append_inj (c := ')') hb.2 hd.2 (by decide) hr
      exact ⟨rfl, hxy⟩
    | not d => exact absurd hhead rel.symbol_ne_not
    | binary op l' r' => exact absurd hhead (rel.symbol_ne_connective op)
  | not b ih =>
    obtain ⟨hhead, hinner⟩ := head_and_operands_of_render h
    cases d with
    | compare rel l r => exact absurd hhead.symm rel.symbol_ne_not
    | not d =>
      obtain ⟨rfl, hrest⟩ := ih (d := d) hb hd hinner
      exact ⟨rfl, (List.cons.inj hrest).2⟩
    | binary op l r => exact absurd hhead.symm op.symbol_ne_not
  | binary op l r ihl ihr =>
    obtain ⟨hhead, hl⟩ := head_and_operands_of_render h
    cases d with
    | compare rel l' r' => exact absurd hhead.symm (rel.symbol_ne_connective op)
    | not d => exact absurd hhead op.symbol_ne_not
    | binary op' l' r' =>
      obtain rfl := Connective.symbol_inj hhead
      simp only [operands, List.append_assoc, List.cons_append] at hl
      obtain ⟨rfl, hr⟩ := ihl hb.1 hd.1 hl
      obtain ⟨rfl, hrest⟩ := ihr hb.2 hd.2 (List.cons.inj hr).2
      exact ⟨rfl, (List.cons.inj hrest).2⟩

end Boolean

end ImpLang
