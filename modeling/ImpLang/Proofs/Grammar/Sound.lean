import ImpLang.Proofs.Grammar.Phrase
import ImpLang.Proofs.Parser.Language

namespace ImpLang.Parser

variable {ι : Type} {τ : ι → Type} {α ω : Type} {w : List Token}
  {R : (i : ι) → List Token → τ i → Prop}

theorem language_choice {first : Parser τ α} {others : List (Parser τ α)} {v : α} :
    Language R (choice first others) w v ↔ ∃ p ∈ first :: others, Language R p w v := by
  induction others generalizing first with
  | nil => simp [choice]
  | cons p ps ih =>
    change Language R (choice (.alt first p) ps) w v ↔ _
    rw [ih]
    simp [Language, or_assoc]

theorem language_oneOf {symbol : ω → String} {o v : ω} {os : List ω} :
    Language R (oneOf symbol o os : Parser τ ω) w v ↔
      v ∈ o :: os ∧ w = [.reserved (symbol v)] := by
  have h (o : ω) : Language R (symbolFor symbol o : Parser τ ω) w v ↔
      w = [.reserved (symbol o)] ∧ o = v := by
    constructor
    · rintro ⟨_, ⟨hw, -⟩, ho⟩
      exact ⟨hw, ho⟩
    · rintro ⟨hw, ho⟩
      exact ⟨_, ⟨hw, rfl⟩, ho⟩
  rw [oneOf, language_choice, ← List.map_cons]
  constructor
  · rintro ⟨p, hp, hl⟩
    obtain ⟨o', ho', rfl⟩ := List.mem_map.1 hp
    obtain ⟨hw, rfl⟩ := (h o').1 hl
    exact ⟨ho', hw⟩
  · rintro ⟨hv, hw⟩
    exact ⟨_, List.mem_map_of_mem hv, (h v).2 ⟨hw, rfl⟩⟩

end ImpLang.Parser

namespace ImpLang.Grammar

open ImpLang.Parser (Language Chain)

variable {T : Type} [Number T] {κ : Kind} {w : List Token}

def Level.separator : {κ : Kind} → Level κ →
    GrammarParser T (κ.Value T → κ.Value T → κ.Value T)
  | _, product => .map Arith.binary (Parser.oneOf ArithOp.symbol .mul [.div])
  | _, sum => .map Arith.binary (Parser.oneOf ArithOp.symbol .add [.sub])
  | _, conjunction => .map Boolean.binary (Parser.oneOf Connective.symbol .and [])
  | _, disjunction => .map Boolean.binary (Parser.oneOf Connective.symbol .or [])
  | _, sequence => .map (fun _ => .seq) (Parser.reserved ";")

def Symbol.parser : {κ : Kind} → Symbol κ → GrammarParser T (κ.Value T)
  | _, factor => arithTerm
  | _, operand => booleanTerm
  | _, statement => Grammar.statement
  | _, list .product => Parser.precedence ArithOp.symbol Arith.binary arithTerm [[.mul, .div]]
  | _, list .sum => arith
  | _, list .conjunction =>
    Parser.precedence Connective.symbol Boolean.binary booleanTerm [[.and]]
  | _, list .disjunction => boolean
  | _, list .sequence => Grammar.statements

theorem parser_list (l : Level κ) :
    (Symbol.list l).parser (T := T) = .sepBy l.element.parser l.separator := by
  cases l <;> rfl

def RuleDerives : (i : Category) → List Token → Tree T i → Prop
  | .arith, w, v => Derives .aexp w v
  | .boolean, w, v => Derives .bexp w v
  | .operand, w, v => Derives .operand w v
  | .statements, w, v => Derives .statements w v

theorem language_separator {l : Level κ} {join : κ.Value T → κ.Value T → κ.Value T} :
    Language RuleDerives l.separator w join ↔
      ∃ o : l.Op, w = [o.token] ∧ Kind.join o.1 = join := by
  have h {ω : Type} {symbol : ω → String} {o : ω} {os : List ω}
      {f : ω → κ.Value T → κ.Value T → κ.Value T} :
      Language RuleDerives (.map f (Parser.oneOf symbol o os) : GrammarParser T _) w join ↔
        ∃ o' : {v // v ∈ o :: os}, w = [.reserved (symbol o'.1)] ∧ f o'.1 = join := by
    constructor
    · rintro ⟨o', ho, rfl⟩
      obtain ⟨hm, rfl⟩ := Parser.language_oneOf.1 ho
      exact ⟨⟨o', hm⟩, rfl, rfl⟩
    · rintro ⟨o', rfl, rfl⟩
      exact ⟨o'.1, Parser.language_oneOf.2 ⟨o'.2, rfl⟩, rfl⟩
  cases l with
  | product | sum | conjunction | disjunction => exact h
  | sequence =>
    constructor
    · rintro ⟨_, ⟨rfl, -⟩, rfl⟩
      exact ⟨⟨(), List.mem_singleton_self _⟩, rfl, rfl⟩
    · rintro ⟨o, rfl, rfl⟩
      exact ⟨_, ⟨rfl, rfl⟩, rfl⟩

theorem derives_list {l : Level κ} {v : κ.Value T}
    (he : ∀ {w v}, Language RuleDerives l.element.parser w v → Derives (T := T) l.element w v)
    (h : Language RuleDerives (Symbol.list l).parser w v) : Derives (T := T) (.list l) w v := by
  rw [parser_list] at h
  change Chain (Language RuleDerives l.element.parser) (Language RuleDerives l.separator) w v at h
  induction h with
  | one h =>
    obtain ⟨d, rfl, rfl⟩ := he h
    exact ⟨.one d, rfl, rfl⟩
  | more _ hs h ih =>
    obtain ⟨d, rfl, rfl⟩ := ih
    obtain ⟨o, rfl, rfl⟩ := language_separator.1 hs
    obtain ⟨e, rfl, rfl⟩ := he h
    exact ⟨.more d o e, rfl, rfl⟩

theorem derives_parens {k : Symbol κ} {inner : GrammarParser T (κ.Value T)} {v : κ.Value T}
    (hi : ∀ {w v}, Language RuleDerives inner w v → Derives (T := T) k w v)
    (h : Language RuleDerives (Parser.parens inner) w v) :
    ∃ d : Phrase T k, w = .reserved "(" :: (d.word ++ [.reserved ")"]) ∧ d.value = v := by
  obtain ⟨⟨⟨_, _⟩, _⟩, h, rfl⟩ := h
  obtain ⟨_, _, rfl, h, rfl, -⟩ := h
  obtain ⟨_, _, rfl, ⟨rfl, -⟩, h⟩ := h
  obtain ⟨d, rfl, hv⟩ := hi h
  exact ⟨d, rfl, hv⟩

theorem derives_factor {v : Arith T} (h : Language RuleDerives arithTerm w v) :
    Derives (T := T) .factor w v := by
  obtain (h | h) | h := h
  · obtain ⟨n, ⟨text, rfl, hn⟩, rfl⟩ := h
    exact ⟨.int text n hn, rfl, rfl⟩
  · obtain ⟨x, rfl, rfl⟩ := h
    exact ⟨.name x, rfl, rfl⟩
  · obtain ⟨d, rfl, rfl⟩ := derives_parens (k := .aexp) id h
    exact ⟨.group d, rfl, rfl⟩

theorem derives_aexp {v : Arith T} (h : Language RuleDerives arith w v) :
    Derives (T := T) .aexp w v :=
  derives_list (l := .sum) (derives_list (l := .product) derives_factor) h

theorem derives_relation {r : Relation}
    (h : Language RuleDerives (relation : GrammarParser T Relation) w r) :
    ∃ s : Relop, w = [s.token] ∧ s.1.2 = r := by
  obtain ⟨s, hs, rfl⟩ := h
  obtain ⟨hm, rfl⟩ := Parser.language_oneOf.1 hs
  exact ⟨⟨s, hm⟩, rfl, rfl⟩

theorem derives_negation {v : Boolean T} (h : Language RuleDerives negation w v) :
    Derives (T := T) .operand w v := by
  obtain ⟨⟨_, _⟩, h, rfl⟩ := h
  obtain ⟨_, _, rfl, ⟨rfl, -⟩, d, rfl, rfl⟩ := h
  exact ⟨.not d, rfl, rfl⟩

theorem exists_compare {v : Boolean T} (h : Language RuleDerives comparison w v) :
    ∃ (d : Phrase T .aexp) (r : Relop) (e : Phrase T .aexp),
      (Phrase.compare d r e).word = w ∧ (Phrase.compare d r e).value = v := by
  obtain ⟨⟨⟨_, _⟩, _⟩, h, rfl⟩ := h
  obtain ⟨_, _, rfl, h, he⟩ := h
  obtain ⟨_, _, rfl, hd, hr⟩ := h
  obtain ⟨d, rfl, rfl⟩ := derives_aexp hd
  obtain ⟨r, rfl, rfl⟩ := derives_relation hr
  obtain ⟨e, rfl, rfl⟩ := derives_aexp he
  exact ⟨d, r, e, by simp [Phrase.word], rfl⟩

theorem derives_operand {v : Boolean T} (h : Language RuleDerives booleanTerm w v) :
    Derives (T := T) .operand w v := by
  obtain (h | h) | h := h
  · exact derives_negation h
  · obtain ⟨d, r, e, hw, hv⟩ := exists_compare h
    exact ⟨.compare d r e, hw, hv⟩
  · obtain ⟨d, rfl, rfl⟩ := derives_parens (k := .bexp) id h
    exact ⟨.condition d, rfl, rfl⟩

theorem derives_bexp {v : Boolean T} (h : Language RuleDerives boolean w v) :
    Derives (T := T) .bexp w v :=
  derives_list (l := .disjunction) (derives_list (l := .conjunction) derives_operand) h

theorem derives_assignment {v : Command T} (h : Language RuleDerives assignment w v) :
    Derives (T := T) .statement w v := by
  obtain ⟨⟨⟨x, _⟩, _⟩, h, rfl⟩ := h
  obtain ⟨_, _, rfl, h, ha⟩ := h
  obtain ⟨_, _, rfl, rfl, rfl, -⟩ := h
  obtain ⟨a, rfl, rfl⟩ := derives_aexp ha
  exact ⟨.assign x a, rfl, rfl⟩

theorem derives_conditional {v : Command T} (h : Language RuleDerives conditional w v) :
    Derives (T := T) .statement w v := by
  obtain ⟨⟨⟨⟨⟨⟨_, _⟩, _⟩, _⟩, other⟩, _⟩, h, rfl⟩ := h
  -- Behind the last keyword, then from the right to the left.
  obtain ⟨_, _, rfl, h, rfl, -⟩ := h
  obtain ⟨_, _, rfl, h, ho⟩ := h
  obtain ⟨_, _, rfl, h, c, rfl, rfl⟩ := h
  obtain ⟨_, _, rfl, h, rfl, -⟩ := h
  obtain ⟨_, _, rfl, ⟨rfl, -⟩, hb⟩ := h
  obtain ⟨b, rfl, rfl⟩ := derives_bexp hb
  match other with
  | none =>
    obtain rfl : _ = [] := ho
    exact ⟨.ifThen b c, by simp [Phrase.word, Token.reserved], rfl⟩
  | some (_, _) =>
    obtain ⟨_, _, rfl, ⟨rfl, -⟩, d, rfl, rfl⟩ := ho
    exact ⟨.ifElse b c d, by simp [Phrase.word, Token.reserved], rfl⟩

theorem derives_loop {v : Command T} (h : Language RuleDerives Grammar.loop w v) :
    Derives (T := T) .statement w v := by
  obtain ⟨⟨⟨⟨⟨_, _⟩, _⟩, _⟩, _⟩, h, rfl⟩ := h
  obtain ⟨_, _, rfl, h, rfl, -⟩ := h
  obtain ⟨_, _, rfl, h, c, rfl, rfl⟩ := h
  obtain ⟨_, _, rfl, h, rfl, -⟩ := h
  obtain ⟨_, _, rfl, ⟨rfl, -⟩, hb⟩ := h
  obtain ⟨b, rfl, rfl⟩ := derives_bexp hb
  exact ⟨.loop b c, by simp [Phrase.word, Token.reserved], rfl⟩

theorem derives_printing {v : Command T} (h : Language RuleDerives printing w v) :
    Derives (T := T) .statement w v := by
  obtain ⟨⟨_, _⟩, h, rfl⟩ := h
  obtain ⟨_, _, rfl, ⟨rfl, -⟩, ha⟩ := h
  obtain ⟨a, rfl, rfl⟩ := derives_aexp ha
  exact ⟨.print a, rfl, rfl⟩

theorem derives_statement {v : Command T} (h : Language RuleDerives Grammar.statement w v) :
    Derives (T := T) .statement w v := by
  obtain ((h | h) | h) | h := h
  · exact derives_assignment h
  · exact derives_conditional h
  · exact derives_loop h
  · exact derives_printing h

theorem derives_of_language {k : Symbol κ} {v : κ.Value T}
    (h : Language RuleDerives k.parser w v) : Derives (T := T) k w v := by
  cases k with
  | factor => exact derives_factor h
  | operand => exact derives_operand h
  | statement => exact derives_statement h
  | list l =>
    cases l with
    | product => exact derives_list (l := .product) derives_factor h
    | sum => exact derives_aexp h
    | conjunction => exact derives_list (l := .conjunction) derives_operand h
    | disjunction => exact derives_bexp h
    | sequence => exact derives_list (l := .sequence) derives_statement h

theorem ruleDerives_of_language (i : Category) (w : List Token) (v : Tree T i)
    (h : Language RuleDerives (rules i) w v) : RuleDerives i w v := by
  cases i with
  | arith => exact derives_aexp h
  | boolean => exact derives_bexp h
  | operand => exact derives_operand h
  | statements => exact derives_list (l := .sequence) derives_statement h

theorem exists_phrase {k : Symbol κ} {ts : Array Token} {depth pos stop : Nat} {v : κ.Value T}
    (h : Parser.Replies rules ts depth k.parser pos (some (stop, v))) :
    ∃ d : Phrase T k, Parser.Spans ts pos stop d.word ∧ d.value = v := by
  obtain ⟨w, hspan, hw⟩ := h.spans ruleDerives_of_language
  obtain ⟨d, rfl, hv⟩ := derives_of_language hw
  exact ⟨d, hspan, hv⟩

end ImpLang.Grammar
