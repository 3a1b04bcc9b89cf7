import ImpLang.Proofs.Program.Canonical

namespace ImpLang

variable {T : Type} [Number T]

namespace Token

def parens (ts : List Token) : List Token := .reserved "(" :: (ts ++ [.reserved ")"])

def operand (isOperation : Bool) (ts : List Token) : List Token :=
  if isOperation then parens ts else ts

end Token

namespace Arith

def isOperation : Arith T → Bool
  | binary _ _ _ => true
  | _ => false

def tokens : Arith T → List Token
  | lit n => [.int (Number.render n)]
  | var x => [.id x]
  | binary op l r =>
    Token.operand l.isOperation l.tokens ++ .reserved op.symbol ::
      Token.operand r.isOperation r.tokens

end Arith

namespace Boolean

def tokens : Boolean T → List Token
  | compare rel l r =>
    Token.operand l.isOperation l.tokens ++ .reserved rel.symbol ::
      Token.operand r.isOperation r.tokens
  | not b => .reserved "not" :: Token.parens b.tokens
  | binary op l r => Token.parens l.tokens ++ .reserved op.symbol :: Token.parens r.tokens

end Boolean

namespace Command

def tokens : Command T → List Token
  | assign x e => .id x :: .reserved ":=" :: e.tokens
  | seq c d => c.tokens ++ .reserved ";" :: d.tokens
  | ifThen b c =>
    .reserved "if" :: (b.tokens ++ .reserved "then" :: (c.tokens ++ [.reserved "end"]))
  | ifElse b c d =>
    .reserved "if" :: (b.tokens ++ .reserved "then" ::
      (c.tokens ++ .reserved "else" :: (d.tokens ++ [.reserved "end"])))
  | loop b c =>
    .reserved "while" :: (b.tokens ++ .reserved "do" :: (c.tokens ++ [.reserved "end"]))
  | print e => .reserved "print" :: e.tokens

def source (c : Command T) : String := " ".intercalate (c.tokens.map Token.text)

example : source (.print (.binary .mul (.lit 2) (.binary .sub (.var "x") (.lit 1))) : Command Int) =
    "print 2 * ( x - 1 )" := by decide

end Command

theorem Token.isLexeme_reserved {s : String} (h : s ∈ Lexer.keywords ∨ s ∈ Lexer.symbols) :
    (Token.reserved s).IsLexeme := by
  simpa [Token.IsLexeme, Token.reserved, Lexer.Lexeme] using h

namespace Number

theorem render_of_nonneg {n : T} (h : 0 ≤ toInt n) :
    render n = String.ofList (Nat.toDigits 10 (toInt n).toNat) := by
  rw [render, Int.repr_eq_if, if_pos h, Nat.repr_eq_ofList_toDigits]

theorem isLexeme_render {n : T} (h : 0 ≤ toInt n) : (Token.int (render n)).IsLexeme := by
  rw [render_of_nonneg h]
  simpa [Token.IsLexeme, Token.int, Lexer.Lexeme, Nat.toDigits_ne_nil] using
    Literal.isDigit_toDigits (toInt n).toNat

theorem literal?_render {n : T} (h : 0 ≤ toInt n) : literal? (render n) = some n := by
  rw [render_of_nonneg h, literal?_digits Nat.toDigits_ne_nil (Literal.isDigit_toDigits _),
    Nat.ofDigitChars_ten_toDigits, Int.toNat_of_nonneg h, ofInt?_toInt]

end Number

namespace Token

theorem isLexeme_parens {ts : List Token} (h : ∀ t ∈ ts, t.IsLexeme) :
    ∀ t ∈ parens ts, t.IsLexeme := by
  simp only [parens, List.forall_mem_cons, List.forall_mem_append]
  exact ⟨isLexeme_reserved (by decide), h, isLexeme_reserved (by decide), by simp⟩

theorem isLexeme_operand {b : Bool} {ts : List Token} (h : ∀ t ∈ ts, t.IsLexeme) :
    ∀ t ∈ operand b ts, t.IsLexeme := by
  cases b with
  | false => exact h
  | true => exact isLexeme_parens h

end Token

open Token (isLexeme_reserved isLexeme_parens isLexeme_operand)

theorem Arith.isLexeme_tokens (e : Arith T) (h : e.Canonical) : ∀ t ∈ e.tokens, t.IsLexeme := by
  induction e with
  | lit n => simpa [tokens] using Number.isLexeme_render h
  | var x =>
    simp only [tokens, List.forall_mem_singleton]
    exact h
  | binary op l r ihl ihr =>
    simp only [tokens, List.forall_mem_cons, List.forall_mem_append]
    refine ⟨isLexeme_operand (ihl h.1), isLexeme_reserved ?_, isLexeme_operand (ihr h.2)⟩
    cases op <;> decide

theorem Boolean.isLexeme_tokens (b : Boolean T) (h : b.Canonical) :
    ∀ t ∈ b.tokens, t.IsLexeme := by
  induction b with
  | compare rel l r =>
    have hl := isLexeme_operand (b := l.isOperation) (l.isLexeme_tokens h.1)
    have hr := isLexeme_operand (b := r.isOperation) (r.isLexeme_tokens h.2)
    simp only [tokens, List.forall_mem_cons, List.forall_mem_append]
    refine ⟨hl, isLexeme_reserved ?_, hr⟩
    cases rel <;> decide
  | not b ih =>
    simp only [tokens, List.forall_mem_cons]
    exact ⟨isLexeme_reserved (by decide), isLexeme_parens (ih h)⟩
  | binary op l r ihl ihr =>
    simp only [tokens, List.forall_mem_cons, List.forall_mem_append]
    refine ⟨isLexeme_parens (ihl h.1), isLexeme_reserved ?_, isLexeme_parens (ihr h.2)⟩
    cases op <;> decide

theorem Command.isLexeme_tokens (c : Command T) (h : c.Canonical) :
    ∀ t ∈ c.tokens, t.IsLexeme := by
  induction c with
  | assign x e =>
    simp only [tokens, List.forall_mem_cons]
    exact ⟨h.1, isLexeme_reserved (by decide), e.isLexeme_tokens h.2⟩
  | seq c d ihc ihd =>
    simp only [tokens, List.forall_mem_cons, List.forall_mem_append]
    exact ⟨ihc h.1, isLexeme_reserved (by decide), ihd h.2.1⟩
  | ifThen b c ih | loop b c ih =>
    simp only [tokens, List.forall_mem_cons, List.forall_mem_append]
    exact ⟨isLexeme_reserved (by decide), b.isLexeme_tokens h.1, isLexeme_reserved (by decide),
      ih h.2, isLexeme_reserved (by decide), by simp⟩
  | ifElse b c d ihc ihd =>
    simp only [tokens, List.forall_mem_cons, List.forall_mem_append]
    exact ⟨isLexeme_reserved (by decide), b.isLexeme_tokens h.1, isLexeme_reserved (by decide),
      ihc h.2.1, isLexeme_reserved (by decide), ihd h.2.2, isLexeme_reserved (by decide), by simp⟩
  | print e =>
    simp only [tokens, List.forall_mem_cons]
    exact ⟨isLexeme_reserved (by decide), e.isLexeme_tokens h⟩

namespace Grammar

variable {κ : Kind} {w w' : List Token} {v v' : κ.Value T}

theorem Derives.one (l : Level κ) (h : Derives (T := T) l.element w v) :
    Derives (T := T) (.list l) w v := by
  obtain ⟨d, rfl, rfl⟩ := h
  exact ⟨.one d, rfl, rfl⟩

theorem Derives.more (l : Level κ) (o : κ.Operator) (ho : o ∈ l.operators)
    (hf : Derives (T := T) (.list l) w v) (hl : Derives (T := T) l.element w' v') :
    Derives (T := T) (.list l) (w ++ .reserved (Kind.symbol o) :: w') (Kind.join o v v') := by
  obtain ⟨d, rfl, rfl⟩ := hf
  obtain ⟨e, rfl, rfl⟩ := hl
  exact ⟨.more d ⟨o, ho⟩ e, rfl, rfl⟩

theorem Derives.group {e : Arith T} (h : Derives (T := T) .aexp w e) :
    Derives (T := T) .factor (Token.parens w) e := by
  obtain ⟨d, rfl, rfl⟩ := h
  exact ⟨.group d, rfl, rfl⟩

theorem Derives.condition {b : Boolean T} (h : Derives (T := T) .bexp w b) :
    Derives (T := T) .operand (Token.parens w) b := by
  obtain ⟨d, rfl, rfl⟩ := h
  exact ⟨.condition d, rfl, rfl⟩

end Grammar

open Grammar

theorem Arith.derives_operand {e : Arith T} (hc : e.Canonical) (h : Derives .aexp e.tokens e) :
    Derives .factor (Token.operand e.isOperation e.tokens) e := by
  cases e with
  | lit n => exact ⟨.int _ n (Number.literal?_render hc), rfl, rfl⟩
  | var x => exact ⟨.name x, rfl, rfl⟩
  | binary op l r => exact h.group

theorem Arith.derives_tokens (e : Arith T) (h : e.Canonical) : Derives .aexp e.tokens e := by
  induction e with
  | lit n => exact ⟨.one (.one (.int _ n (Number.literal?_render h))), rfl, rfl⟩
  | var x => exact ⟨.one (.one (.name x)), rfl, rfl⟩
  | binary op l r ihl ihr =>
    have hl := derives_operand h.1 (ihl h.1)
    have hr := derives_operand h.2 (ihr h.2)
    -- Operands are factors, so an operation needs one level only.
    cases op with
    | mul => exact .one .sum (.more .product .mul (by decide) (.one .product hl) hr)
    | div => exact .one .sum (.more .product .div (by decide) (.one .product hl) hr)
    | add => exact .more .sum .add (by decide) (.one .sum (.one .product hl)) (.one .product hr)
    | sub => exact .more .sum .sub (by decide) (.one .sum (.one .product hl)) (.one .product hr)

theorem Boolean.derives_tokens (b : Boolean T) (h : b.Canonical) : Derives .bexp b.tokens b := by
  induction b with
  | compare rel l r =>
    obtain ⟨d, hd, hdv⟩ := Arith.derives_operand h.1 (l.derives_tokens h.1)
    obtain ⟨e, he, hev⟩ := Arith.derives_operand h.2 (r.derives_tokens h.2)
    have hr : (rel.symbol, rel) ∈ relations := by cases rel <;> decide
    refine ⟨.one (.one (.compare (.one (.one d)) ⟨_, hr⟩ (.one (.one e)))), ?_, ?_⟩
    · simp only [Phrase.word, hd, he]
      rfl
    · simp only [Phrase.value, hdv, hev]
  | not b ih =>
    obtain ⟨d, hd, hdv⟩ := (ih h).condition
    refine ⟨.one (.one (.not d)), ?_, ?_⟩
    · simp only [Phrase.word, hd, tokens]
    · simp only [Phrase.value, hdv]
  | binary op l r ihl ihr =>
    have hl := (ihl h.1).condition
    have hr := (ihr h.2).condition
    cases op with
    | and =>
      exact .one .disjunction (.more .conjunction .and (by decide) (.one .conjunction hl) hr)
    | or =>
      exact .more .disjunction .or (by decide) (.one .disjunction (.one .conjunction hl))
        (.one .conjunction hr)

theorem Command.derives_tokens (c : Command T) (h : c.Canonical) :
    Derives .statements c.tokens c ∧ (c.isSeq = false → Derives .statement c.tokens c) := by
  have statement {c : Command T} (hc : Derives .statement c.tokens c) :
      Derives .statements c.tokens c ∧ (c.isSeq = false → Derives .statement c.tokens c) :=
    ⟨.one .sequence hc, fun _ => hc⟩
  induction c with
  | assign x e =>
    obtain ⟨d, hd, hdv⟩ := e.derives_tokens h.2
    exact statement ⟨.assign x d, by simp only [Phrase.word, hd, tokens], by rw [Phrase.value, hdv]⟩
  | seq c d ihc ihd =>
    have hc := (ihc h.1).1
    have hd := (ihd h.2.1).2 h.2.2
    exact ⟨.more .sequence () (by decide) hc hd, fun hs => by cases hs⟩
  | ifThen b c ih =>
    obtain ⟨d, hd, hdv⟩ := b.derives_tokens h.1
    obtain ⟨e, he, hev⟩ := (ih h.2).1
    exact statement ⟨.ifThen d e, by simp only [Phrase.word, hd, he, tokens],
      by rw [Phrase.value, hdv, hev]⟩
  | ifElse b c d ihc ihd =>
    obtain ⟨p, hp, hpv⟩ := b.derives_tokens h.1
    obtain ⟨q, hq, hqv⟩ := (ihc h.2.1).1
    obtain ⟨r, hr, hrv⟩ := (ihd h.2.2).1
    exact statement ⟨.ifElse p q r, by simp only [Phrase.word, hp, hq, hr, tokens],
      by rw [Phrase.value, hpv, hqv, hrv]⟩
  | loop b c ih =>
    obtain ⟨d, hd, hdv⟩ := b.derives_tokens h.1
    obtain ⟨e, he, hev⟩ := (ih h.2).1
    exact statement ⟨.loop d e, by simp only [Phrase.word, hd, he, tokens],
      by rw [Phrase.value, hdv, hev]⟩
  | print e =>
    obtain ⟨d, hd, hdv⟩ := e.derives_tokens h
    exact statement ⟨.print d, by simp only [Phrase.word, hd, tokens], by rw [Phrase.value, hdv]⟩

namespace Command

theorem tokenize_source {c : Command T} (h : c.Canonical) : tokenize c.source = .ok c.tokens := by
  have hm := Lexer.munches_intercalate (c.isLexeme_tokens h)
  rw [tokenize_eq_ok, source, String.toList_intercalate, List.map_map]
  exact hm

theorem ofSource_source {c : Command T} (h : c.Canonical) : ofSource c.source = .ok c :=
  ofSource_eq_ok.2 ⟨c.tokens, tokenize_eq_ok.1 (tokenize_source h), (c.derives_tokens h).1⟩

/-- The programs that source texts are read as are the canonical ones, and each of them is read
back from the text that it is written as. -/
theorem ofSource_source_iff (T : Type) [Number T] (c : Command T) :
    ((∃ source, ofSource source = .ok c) ↔ c.Canonical) ∧
    (c.Canonical ↔ tokenize c.source = .ok c.tokens ∧ ofSource c.source = .ok c) := by
  refine ⟨⟨?_, ?_⟩, ⟨?_, ?_⟩⟩
  · rintro ⟨source, h⟩
    exact canonical_of_ofSource h
  · intro h
    exact ⟨c.source, ofSource_source h⟩
  · intro h
    exact ⟨tokenize_source h, ofSource_source h⟩
  · rintro ⟨-, h⟩
    exact canonical_of_ofSource h

end Command

end ImpLang
