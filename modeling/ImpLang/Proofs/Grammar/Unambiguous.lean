import ImpLang.Proofs.Grammar.Phrase

namespace ImpLang.Grammar

variable {T : Type} [Number T] {κ : Kind}

def arithOps : List Token := ["*", "/", "+", "-"].map .reserved

/-- The tokens with which a phrase of the symbol can go on to a longer one. -/
def Symbol.continuations : {κ : Kind} → Symbol κ → List Token
  | _, factor => []
  | _, list .product => ["*", "/"].map .reserved
  | _, list .sum => arithOps
  | _, operand => arithOps
  | _, list .conjunction => arithOps ++ [.reserved "and"]
  | _, list .disjunction => arithOps ++ ["and", "or"].map .reserved
  | _, statement => arithOps
  | _, list .sequence => arithOps ++ [.reserved ";"]

def Symbol.Continues (k : Symbol κ) (w : List Token) : Prop :=
  ∃ t ∈ k.continuations, ∃ rest, w = t :: rest

namespace Symbol

theorem continues_cons {k : Symbol κ} {t : Token} {w : List Token} :
    k.Continues (t :: w) ↔ t ∈ k.continuations := by
  constructor
  · rintro ⟨u, hu, rest, h⟩
    rwa [(List.cons.inj h).1]
  · intro h
    exact ⟨t, h, w, rfl⟩

theorem not_continues_nil (k : Symbol κ) : ¬ k.Continues [] := by
  rintro ⟨t, -, rest, h⟩
  cases h

end Symbol

abbrev NotParen (t : Token) : Prop := t ≠ .reserved "(" ∧ t ≠ .reserved ")"

theorem notParen_of_tag {t : Token} (h : t.tag ≠ .reserved) : NotParen t := by
  constructor
  · rintro rfl
    exact h rfl
  · rintro rfl
    exact h rfl

namespace Level

variable {l : Level κ}

def tokens (l : Level κ) : List Token := l.operators.map fun o => .reserved (Kind.symbol o)

theorem Op.token_mem_tokens (o : l.Op) : o.token ∈ l.tokens := List.mem_map.2 ⟨o.1, o.2, rfl⟩

theorem Op.token_inj {o p : l.Op} (h : o.token = p.token) : o = p := by
  have inj : ∀ a ∈ l.operators, ∀ b ∈ l.operators,
      Token.reserved (Kind.symbol a) = .reserved (Kind.symbol b) → a = b := by
    cases l <;> decide
  exact Subtype.ext (inj _ o.2 _ p.2 h)

theorem Op.token_mem (o : l.Op) : o.token ∈ (Symbol.list l).continuations := by
  have h : ∀ t ∈ l.tokens, t ∈ (Symbol.list l).continuations := by cases l <;> decide
  exact h _ o.token_mem_tokens

theorem Op.token_not_mem (o : l.Op) : o.token ∉ l.element.continuations := by
  have h : ∀ t ∈ l.tokens, t ∉ l.element.continuations := by cases l <;> decide
  exact h _ o.token_mem_tokens

theorem Op.token_notParen (o : l.Op) : NotParen o.token := by
  have h : ∀ t ∈ l.tokens, NotParen t := by cases l <;> decide
  exact h _ o.token_mem_tokens

theorem continues_of_element {w : List Token} (h : l.element.Continues w) :
    (Symbol.list l).Continues w := by
  obtain ⟨t, ht, rest, rfl⟩ := h
  have sub : ∀ t ∈ l.element.continuations, t ∈ (Symbol.list l).continuations := by
    cases l <;> decide
  exact Symbol.continues_cons.2 (sub t ht)

end Level

namespace Relop

theorem token_notParen (r : Relop) : NotParen r.token := by
  have h : ∀ r ∈ relations, NotParen (.reserved r.1) := by decide
  exact h r.1 r.2

theorem token_not_mem (r : Relop) : r.token ∉ arithOps := by
  have h : ∀ r ∈ relations, Token.reserved r.1 ∉ arithOps := by decide
  exact h r.1 r.2

theorem token_inj {r s : Relop} (h : r.token = s.token) : r = s := by
  have inj : ∀ a ∈ relations, ∀ b ∈ relations,
      Token.reserved a.1 = .reserved b.1 → a = b := by
    decide
  exact Subtype.ext (inj _ r.2 _ s.2 h)

end Relop

/-- What stands behind the parenthesis that closes the outermost of `depth + 1` open ones. -/
def afterClose : Nat → List Token → Option (List Token)
  | _, [] => none
  | depth, t :: ts =>
    if t = .reserved "(" then afterClose (depth + 1) ts
    else if t = .reserved ")" then
      match depth with
      | 0 => some ts
      | depth + 1 => afterClose depth ts
    else afterClose depth ts

theorem afterClose_open (depth : Nat) (w : List Token) :
    afterClose depth (.reserved "(" :: w) = afterClose (depth + 1) w := by
  simp [afterClose]

theorem afterClose_close (depth : Nat) (w : List Token) :
    afterClose (depth + 1) (.reserved ")" :: w) = afterClose depth w := by
  have h : Token.reserved ")" ≠ .reserved "(" := by decide
  simp [afterClose, h]

theorem afterClose_cons {t : Token} (h : NotParen t) (depth : Nat) (w : List Token) :
    afterClose depth (t :: w) = afterClose depth w := by
  simp [afterClose, h]

namespace Phrase

variable {k : Symbol κ}

theorem afterClose_tailWord {l : Level κ} {ps : List (l.Op × Phrase T l.element)}
    (h : ∀ p ∈ ps, ∀ depth rest, afterClose depth (p.2.word ++ rest) = afterClose depth rest)
    (depth : Nat) (rest : List Token) :
    afterClose depth (tailWord ps ++ rest) = afterClose depth rest := by
  induction ps with
  | nil => rfl
  | cons p ps ih =>
    have hp := h p List.mem_cons_self
    have hps := ih fun q hq => h q (List.mem_cons_of_mem p hq)
    rw [tailWord_cons, List.cons_append, afterClose_cons p.1.token_notParen, List.append_assoc,
      hp, hps]

theorem afterClose_word (d : Phrase T k) (depth : Nat) (rest : List Token) :
    afterClose depth (d.word ++ rest) = afterClose depth rest := by
  have keyword {s : String} (h : NotParen (.reserved s)) (depth : Nat) (w : List Token) :
      afterClose depth (.reserved s :: w) = afterClose depth w := afterClose_cons h depth w
  induction d using elements_induction generalizing depth rest with
  | int text n _ => exact afterClose_cons (notParen_of_tag Tag.noConfusion) depth rest
  | name x => exact afterClose_cons (notParen_of_tag Tag.noConfusion) depth rest
  | group d ih =>
    simp only [word, List.cons_append, List.append_assoc, afterClose_open, ih, List.nil_append,
      afterClose_close]
  | not d ih => rw [word, List.cons_append, keyword (by decide), ih]
  | compare d r e hd he =>
    rw [word, List.append_assoc, hd, List.cons_append, afterClose_cons r.token_notParen, he]
  | condition d ih =>
    simp only [word, List.cons_append, List.append_assoc, afterClose_open, ih, List.nil_append,
      afterClose_close]
  | assign x d ih =>
    have hx : NotParen (.id x) := notParen_of_tag Tag.noConfusion
    rw [word, List.cons_append, afterClose_cons hx, List.cons_append, keyword (by decide), ih]
  | ifThen b c hb hc =>
    simp only [word, List.cons_append, List.append_assoc, List.nil_append]
    rw [keyword (by decide), hb, keyword (by decide), hc, keyword (by decide)]
  | ifElse b c d hb hc hd =>
    simp only [word, List.cons_append, List.append_assoc, List.nil_append]
    rw [keyword (by decide), hb, keyword (by decide), hc, keyword (by decide), hd,
      keyword (by decide)]
  | loop b c hb hc =>
    simp only [word, List.cons_append, List.append_assoc, List.nil_append]
    rw [keyword (by decide), hb, keyword (by decide), hc, keyword (by decide)]
  | print d ih => rw [word, List.cons_append, keyword (by decide), ih]
  | list d hfirst hothers =>
    rw [word_eq, List.append_assoc, hfirst, afterClose_tailWord hothers]

theorem word_eq_of_close {κ' : Kind} {j : Symbol κ'} (d : Phrase T j) (e : Phrase T k)
    {x y : List Token} (h : d.word ++ .reserved ")" :: x = e.word ++ .reserved ")" :: y) :
    d.word = e.word := by
  have hd := afterClose_word d 0 (.reserved ")" :: x)
  have he := afterClose_word e 0 (.reserved ")" :: y)
  rw [h, he] at hd
  have hxy : y = x := by simpa [afterClose, Token.reserved] using hd
  rw [hxy] at h
  exact List.append_cancel_right h

theorem relop_not_mem_arith {k : Symbol .arith} (d : Phrase T k) (r : Relop) :
    r.token ∉ d.word := by
  suffices h : ∀ {κ : Kind} {k : Symbol κ} (d : Phrase T k), κ = .arith → r.token ∉ d.word from
    h d rfl
  intro κ k d hκ
  induction d using elements_induction with
  | int | name => simp [word, Relop.token, Token.reserved, Token.int, Token.id]
  | group d ih =>
    have hr := r.token_notParen
    simp [word, ih rfl, hr]
  | list d hfirst hothers =>
    subst hκ
    rename_i l
    rw [word_eq, tailWord]
    simp only [List.mem_append, List.mem_flatMap, List.mem_cons, not_or, not_exists, not_and]
    refine ⟨hfirst rfl, fun p hp => ⟨?_, hothers p hp rfl⟩⟩
    intro h
    have hl : ∀ t ∈ l.tokens, t ∈ arithOps := by cases l <;> decide
    exact r.token_not_mem (h ▸ hl _ p.1.token_mem_tokens)
  | _ => cases hκ

theorem exists_relop_mem_boolean {k : Symbol .boolean} (d : Phrase T k) :
    ∃ r : Relop, r.token ∈ d.word := by
  suffices h : ∀ {κ : Kind} {k : Symbol κ} (d : Phrase T k), κ = .boolean →
      ∃ r : Relop, r.token ∈ d.word from h d rfl
  intro κ k d hκ
  induction d using elements_induction with
  | not d ih | condition d ih =>
    obtain ⟨r, hr⟩ := ih rfl
    exact ⟨r, by simp [word, hr]⟩
  | compare d r e => exact ⟨r, by simp [word]⟩
  | list d hfirst _ =>
    obtain ⟨r, hr⟩ := hfirst hκ
    exact ⟨r, by simp [word_eq, hr]⟩
  | _ => cases hκ

/-- Two phrases of a symbol, with `x` and `y` behind them, are the same, or the shorter one is
continued. -/
def Meet (d e : Phrase T k) (x y : List Token) : Prop :=
  d = e ∧ x = y ∨
    d.word.length < e.word.length ∧ k.Continues x ∨ e.word.length < d.word.length ∧ k.Continues y

def Apart (d : Phrase T k) : Prop :=
  ∀ (e : Phrase T k) (x y : List Token), d.word ++ x = e.word ++ y → Meet d e x y

theorem Apart.delimited {d e : Phrase T k} {s t : Token} {x y : List Token} (hd : Apart d)
    (h : d.word ++ s :: x = e.word ++ t :: y) (hs : s ∉ k.continuations)
    (ht : t ∉ k.continuations) : d = e ∧ s = t ∧ x = y := by
  obtain ⟨rfl, hxy⟩ | ⟨-, hc⟩ | ⟨-, hc⟩ := hd e _ _ h
  · exact ⟨rfl, List.cons.inj hxy⟩
  · exact absurd (Symbol.continues_cons.1 hc) hs
  · exact absurd (Symbol.continues_cons.1 hc) ht

theorem Meet.last {κ' : Kind} {j : Symbol κ'} {d e : Phrase T j} {x y : List Token}
    (h : Meet d e x y) (f : Phrase T j → Phrase T k) (front : List Token)
    (hf : ∀ d, (f d).word = front ++ d.word) (hc : ∀ w, j.Continues w → k.Continues w) :
    Meet (f d) (f e) x y := by
  have hlen (d : Phrase T j) : (f d).word.length = front.length + d.word.length := by
    rw [hf, List.length_append]
  rw [Meet, hlen, hlen]
  obtain ⟨rfl, rfl⟩ | ⟨hlt, hx⟩ | ⟨hlt, hy⟩ := h
  · exact .inl ⟨rfl, rfl⟩
  · exact .inr (.inl ⟨by omega, hc x hx⟩)
  · exact .inr (.inr ⟨by omega, hc y hy⟩)

theorem tail_continues {l : Level κ} {ps : List (l.Op × Phrase T l.element)} {x : List Token}
    (h : l.element.Continues (tailWord ps ++ x)) : ps = [] ∧ l.element.Continues x := by
  cases ps with
  | nil => exact ⟨rfl, h⟩
  | cons p ps => exact absurd (Symbol.continues_cons.1 h) p.1.token_not_mem

theorem tail_meet {l : Level κ} {ps qs : List (l.Op × Phrase T l.element)} {x y : List Token}
    (hps : ∀ p ∈ ps, Apart p.2) (h : tailWord ps ++ x = tailWord qs ++ y) :
    ps = qs ∧ x = y ∨
      (tailWord ps).length < (tailWord qs).length ∧ (Symbol.list l).Continues x ∨
      (tailWord qs).length < (tailWord ps).length ∧ (Symbol.list l).Continues y := by
  induction ps generalizing qs with
  | nil =>
    cases qs with
    | nil => exact .inl ⟨rfl, h⟩
    | cons q qs =>
      refine .inr (.inl ⟨by simp, ?_⟩)
      rw [show x = _ from h]
      exact Symbol.continues_cons.2 q.1.token_mem
  | cons p ps ih =>
    cases qs with
    | nil =>
      refine .inr (.inr ⟨by simp, ?_⟩)
      rw [show y = _ from h.symm]
      exact Symbol.continues_cons.2 p.1.token_mem
    | cons q qs =>
      obtain ⟨o, d⟩ := p
      obtain ⟨o', e⟩ := q
      have hd : Apart d := hps (o, d) List.mem_cons_self
      simp only [tailWord_cons, List.cons_append, List.append_assoc, List.cons.injEq] at h
      obtain rfl := Level.Op.token_inj h.1
      simp only [tailWord_cons, List.length_cons, List.length_append]
      obtain ⟨rfl, htail⟩ | ⟨hlt, hc⟩ | ⟨hlt, hc⟩ := hd e _ _ h.2
      · obtain ⟨rfl, rfl⟩ | hm | hm := ih (fun p hp => hps p (List.mem_cons_of_mem _ hp)) htail
        · exact .inl ⟨rfl, rfl⟩
        · exact .inr (.inl ⟨by omega, hm.2⟩)
        · exact .inr (.inr ⟨by omega, hm.2⟩)
      -- The shorter element is the last of its row: an operator does not continue it.
      · obtain ⟨rfl, hx⟩ := tail_continues hc
        exact .inr (.inl ⟨by simp; omega, Level.continues_of_element hx⟩)
      · obtain ⟨rfl, hy⟩ := tail_continues hc
        exact .inr (.inr ⟨by simp; omega, Level.continues_of_element hy⟩)

theorem list_apart {l : Level κ} (d : Phrase T (.list l)) (hf : Apart d.first)
    (ho : ∀ p ∈ d.others, Apart p.2) : Apart d := by
  intro e x y h
  rw [word_eq, word_eq, List.append_assoc, List.append_assoc] at h
  have hd := congrArg List.length (word_eq d)
  have he := congrArg List.length (word_eq e)
  rw [List.length_append] at hd he
  obtain ⟨hfirst, h⟩ | ⟨hlt, hc⟩ | ⟨hlt, hc⟩ := hf e.first _ _ h
  · rw [hfirst] at hd
    obtain ⟨hothers, rfl⟩ | ⟨hlt, hc⟩ | ⟨hlt, hc⟩ := tail_meet ho h
    · exact .inl ⟨eq_of_first_of_others d e hfirst hothers, rfl⟩
    · exact .inr (.inl ⟨by omega, hc⟩)
    · exact .inr (.inr ⟨by omega, hc⟩)
  · obtain ⟨hn, hx⟩ := tail_continues hc
    rw [hn, tailWord_nil, List.length_nil] at hd
    exact .inr (.inl ⟨by omega, Level.continues_of_element hx⟩)
  · obtain ⟨hn, hy⟩ := tail_continues hc
    rw [hn, tailWord_nil, List.length_nil] at he
    exact .inr (.inr ⟨by omega, Level.continues_of_element hy⟩)

theorem word_compare (d e : Phrase T .aexp) (r : Relop) :
    (compare d r e).word = d.word ++ r.token :: e.word := rfl

theorem factor_of_aexp (d : Phrase T .aexp) : ∃ (f : Phrase T .factor) (rest : List Token),
    d.word = f.word ++ rest := by
  have h := word_eq (d.first : Phrase T (.list .product))
  rw [word_eq d, h, List.append_assoc]
  exact ⟨_, _, rfl⟩

theorem head_aexp (d : Phrase T .aexp) : ∃ t rest, d.word = t :: rest ∧
    (t.tag = .reserved → t = .reserved "(") := by
  obtain ⟨f, rest, h⟩ := factor_of_aexp d
  rw [h]
  cases f with
  | int | name | group => exact ⟨_, _, rfl, by simp [Token.int, Token.id, Token.reserved]⟩

theorem aexp_ne_keyword (d : Phrase T .aexp) {s : String} (hs : s ≠ "(") (x y : List Token) :
    d.word ++ x ≠ .reserved s :: y := by
  obtain ⟨t, rest, hw, ht⟩ := head_aexp d
  intro h
  rw [hw] at h
  obtain ⟨rfl, -⟩ := List.cons.inj h
  have := ht rfl
  exact hs (by simpa [Token.reserved] using this)

/-- No comparison starts like a boolean expression in parentheses. -/
theorem compare_ne_condition (d e : Phrase T .aexp) (r : Relop) (b : Phrase T .bexp)
    (x y : List Token) : (compare d r e).word ++ x ≠ (condition b).word ++ y := by
  intro h
  obtain ⟨f, rest, hd⟩ := factor_of_aexp d
  simp only [word, hd, List.append_assoc, List.cons_append] at h
  cases f with
  | int | name => simp [word, Token.int, Token.id, Token.reserved] at h
  | group a =>
    -- Both parentheses close at the same place, so `a` and `b` have one word.
    simp only [word, List.cons_append, List.append_assoc, List.cons.injEq, true_and] at h
    obtain ⟨r, hr⟩ := exists_relop_mem_boolean b
    rw [← word_eq_of_close a b h] at hr
    exact relop_not_mem_arith a r hr

theorem group_apart {a : Phrase T .aexp} (ha : Apart a) : Apart (Phrase.group a) := by
  intro e x y h
  cases e with
  | int | name => simp [word, Token.int, Token.id, Token.reserved] at h
  | group b =>
    simp only [word, List.cons_append, List.append_assoc, List.cons.injEq, true_and] at h
    obtain ⟨rfl, -, rfl⟩ := ha.delimited h (by decide) (by decide)
    exact .inl ⟨rfl, rfl⟩

theorem not_apart {b : Phrase T .operand} (hb : Apart b) : Apart (Phrase.not b) := by
  intro e x y h
  cases e with
  | not c =>
    exact (hb c x y (List.cons.inj h).2).last .not [.reserved "not"] (fun _ => rfl) fun _ hw => hw
  | compare a r a' =>
    rw [word_compare, List.append_assoc] at h
    exact absurd h.symm (aexp_ne_keyword a (by decide) _ _)
  | condition c => simp [word, Token.reserved] at h

theorem compare_apart {a b : Phrase T .aexp} {r : Relop} (ha : Apart a) (hb : Apart b) :
    Apart (Phrase.compare a r b) := by
  intro e x y h
  cases e with
  | not c =>
    rw [word_compare, List.append_assoc] at h
    exact absurd h (aexp_ne_keyword a (by decide) _ _)
  | compare a' r' b' =>
    simp only [word, List.append_assoc, List.cons_append] at h
    obtain ⟨rfl, hr, hw⟩ := ha.delimited h r.token_not_mem r'.token_not_mem
    obtain rfl := Relop.token_inj hr
    refine (hb b' x y hw).last (.compare a r) (a.word ++ [r.token]) ?_ fun _ hw => hw
    intro d
    simp [word]
  | condition c => exact absurd h (compare_ne_condition a b r c x y)

theorem condition_apart {b : Phrase T .bexp} (hb : Apart b) : Apart (Phrase.condition b) := by
  intro e x y h
  cases e with
  | not c => simp [word, Token.reserved] at h
  | compare a r a' => exact absurd h.symm (compare_ne_condition a a' r b y x)
  | condition c =>
    simp only [word, List.cons_append, List.append_assoc, List.cons.injEq, true_and] at h
    obtain ⟨rfl, -, rfl⟩ := hb.delimited h (by decide) (by decide)
    exact .inl ⟨rfl, rfl⟩

theorem int_apart {text : String} {n : T} (denotes : Number.literal? text = some n) :
    Apart (Phrase.int text n denotes) := by
  intro e x y h
  cases e with
  | int text' n' denotes' =>
    simp only [word, List.cons_append, List.nil_append, List.cons.injEq, Token.int,
      Token.mk.injEq, and_true] at h
    obtain ⟨rfl, rfl⟩ := h
    obtain rfl := Option.some.inj (denotes.symm.trans denotes')
    exact .inl ⟨rfl, rfl⟩
  | name | group => simp [word, Token.int, Token.id, Token.reserved] at h

theorem name_apart (z : String) : Apart (Phrase.name z : Phrase T .factor) := by
  intro e x y h
  cases e with
  | name z' =>
    simp only [word, List.cons_append, List.nil_append, List.cons.injEq, Token.id,
      Token.mk.injEq, and_true] at h
    obtain ⟨rfl, rfl⟩ := h
    exact .inl ⟨rfl, rfl⟩
  | int | group => simp [word, Token.int, Token.id, Token.reserved] at h

theorem assign_apart {a : Phrase T .aexp} (z : String) (ha : Apart a) :
    Apart (Phrase.assign z a) := by
  intro e x y h
  cases e with
  | assign z' b =>
    simp only [word, List.cons_append, List.cons.injEq, Token.id, Token.mk.injEq, and_true,
      true_and] at h
    obtain ⟨rfl, h⟩ := h
    exact (ha b x y h).last (.assign z) [.id z, .reserved ":="] (fun _ => rfl) fun _ hw => hw
  | _ => simp [word, Token.id, Token.reserved] at h

theorem print_apart {a : Phrase T .aexp} (ha : Apart a) : Apart (Phrase.print a) := by
  intro e x y h
  cases e with
  | print b =>
    exact (ha b x y (List.cons.inj h).2).last .print [.reserved "print"] (fun _ => rfl)
      fun _ hw => hw
  | _ => simp [word, Token.id, Token.reserved] at h

theorem loop_apart {b : Phrase T .bexp} {c : Phrase T .statements} (hb : Apart b) (hc : Apart c) :
    Apart (Phrase.loop b c) := by
  intro e x y h
  cases e with
  | loop b' c' =>
    simp only [word, List.cons_append, List.append_assoc, List.cons.injEq, true_and] at h
    obtain ⟨rfl, -, h⟩ := hb.delimited h (by decide) (by decide)
    obtain ⟨rfl, -, rfl⟩ := hc.delimited h (by decide) (by decide)
    exact .inl ⟨rfl, rfl⟩
  | _ => simp [word, Token.id, Token.reserved] at h

theorem ifThen_apart {b : Phrase T .bexp} {c : Phrase T .statements} (hb : Apart b)
    (hc : Apart c) : Apart (Phrase.ifThen b c) := by
  intro e x y h
  cases e with
  | ifThen b' c' =>
    simp only [word, List.cons_append, List.append_assoc, List.cons.injEq, true_and] at h
    obtain ⟨rfl, -, h⟩ := hb.delimited h (by decide) (by decide)
    obtain ⟨rfl, -, rfl⟩ := hc.delimited h (by decide) (by decide)
    exact .inl ⟨rfl, rfl⟩
  | ifElse b' c' d' =>
    simp only [word, List.cons_append, List.append_assoc, List.cons.injEq, true_and] at h
    obtain ⟨rfl, -, h⟩ := hb.delimited h (by decide) (by decide)
    obtain ⟨-, hend, -⟩ := hc.delimited h (by decide) (by decide)
    simp [Token.reserved] at hend
  | _ => simp [word, Token.id, Token.reserved] at h

theorem ifElse_apart {b : Phrase T .bexp} {c d : Phrase T .statements} (hb : Apart b)
    (hc : Apart c) (hd : Apart d) : Apart (Phrase.ifElse b c d) := by
  intro e x y h
  cases e with
  | ifThen b' c' =>
    simp only [word, List.cons_append, List.append_assoc, List.cons.injEq, true_and] at h
    obtain ⟨rfl, -, h⟩ := hb.delimited h (by decide) (by decide)
    obtain ⟨-, hend, -⟩ := hc.delimited h (by decide) (by decide)
    simp [Token.reserved] at hend
  | ifElse b' c' d' =>
    simp only [word, List.cons_append, List.append_assoc, List.cons.injEq, true_and] at h
    obtain ⟨rfl, -, h⟩ := hb.delimited h (by decide) (by decide)
    obtain ⟨rfl, -, h⟩ := hc.delimited h (by decide) (by decide)
    obtain ⟨rfl, -, rfl⟩ := hd.delimited h (by decide) (by decide)
    exact .inl ⟨rfl, rfl⟩
  | _ => simp [word, Token.id, Token.reserved] at h

theorem apart (d : Phrase T k) : Apart d := by
  induction d using elements_induction with
  | int text n denotes => exact int_apart denotes
  | name x => exact name_apart x
  | group a ih => exact group_apart ih
  | not b ih => exact not_apart ih
  | compare a r b iha ihb => exact compare_apart iha ihb
  | condition b ih => exact condition_apart ih
  | assign x a ih => exact assign_apart x ih
  | ifThen b c ihb ihc => exact ifThen_apart ihb ihc
  | ifElse b c d ihb ihc ihd => exact ifElse_apart ihb ihc ihd
  | loop b c ihb ihc => exact loop_apart ihb ihc
  | print a ih => exact print_apart ih
  | list d ihf iho => exact list_apart d ihf iho

theorem word_inj {d e : Phrase T k} (h : d.word = e.word) : d = e := by
  have hm := apart d e [] [] (by rw [h])
  obtain ⟨hde, -⟩ | ⟨-, hc⟩ | ⟨-, hc⟩ := hm
  · exact hde
  · exact absurd hc k.not_continues_nil
  · exact absurd hc k.not_continues_nil

end Phrase

end ImpLang.Grammar
