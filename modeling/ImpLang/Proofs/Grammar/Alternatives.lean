import ImpLang.Proofs.Grammar.Longest
import ImpLang.Proofs.Parser.Agreement

namespace ImpLang.Grammar

open ImpLang.Parser (Excludes Replies RunsAgree Spans)

variable {T : Type} [Number T] {ts : Array Token} {depth depth' pos stop : Nat}

def condition : GrammarParser T (Boolean T) := Parser.parens (.rule Category.boolean)

def operandAlternatives : List (GrammarParser T (Boolean T)) := [negation, comparison, condition]

theorem exists_not {v : Boolean T}
    (h : Replies (rules (T := T)) ts depth negation pos (some (stop, v))) :
    ∃ d : Phrase T .operand, Spans ts pos stop (Phrase.not d).word := by
  obtain ⟨w, hspan, hw⟩ := h.spans ruleDerives_of_language
  obtain ⟨⟨_, _⟩, hw, rfl⟩ := hw
  obtain ⟨_, _, rfl, ⟨rfl, -⟩, d, rfl, rfl⟩ := hw
  exact ⟨d, hspan⟩

theorem exists_comparison {v : Boolean T}
    (h : Replies (rules (T := T)) ts depth comparison pos (some (stop, v))) :
    ∃ (d : Phrase T .aexp) (r : Relop) (e : Phrase T .aexp),
      Spans ts pos stop (Phrase.compare d r e).word := by
  obtain ⟨w, hspan, hw⟩ := h.spans ruleDerives_of_language
  obtain ⟨d, r, e, rfl, -⟩ := exists_compare hw
  exact ⟨d, r, e, hspan⟩

theorem exists_condition {v : Boolean T}
    (h : Replies (rules (T := T)) ts depth condition pos (some (stop, v))) :
    ∃ b : Phrase T .bexp, Spans ts pos stop (Phrase.condition b).word := by
  obtain ⟨w, hspan, hw⟩ := h.spans ruleDerives_of_language
  obtain ⟨b, rfl, -⟩ := derives_parens (k := .bexp) id hw
  exact ⟨b, hspan⟩

theorem negation_excludes_comparison : Excludes (rules (T := T)) ts pos negation comparison := by
  rintro depth depth' ⟨stop, v⟩ ⟨stop', v'⟩ ha hb
  obtain ⟨b, hspan⟩ := exists_not ha
  obtain ⟨d, r, e, hspan'⟩ := exists_comparison hb
  have h := hspan'.1.symm.trans hspan.1
  rw [Phrase.word_compare, List.append_assoc] at h
  exact d.aexp_ne_keyword (by decide) _ _ h

theorem negation_excludes_condition : Excludes (rules (T := T)) ts pos negation condition := by
  rintro depth depth' ⟨stop, v⟩ ⟨stop', v'⟩ ha hb
  obtain ⟨d, hspan⟩ := exists_not ha
  obtain ⟨b, hspan'⟩ := exists_condition hb
  have h := hspan.1.symm.trans hspan'.1
  simp [Phrase.word, Token.reserved] at h

theorem comparison_excludes_condition : Excludes (rules (T := T)) ts pos comparison condition := by
  rintro depth depth' ⟨stop, v⟩ ⟨stop', v'⟩ ha hb
  obtain ⟨d, r, e, hspan⟩ := exists_comparison ha
  obtain ⟨b, hspan'⟩ := exists_condition hb
  exact Phrase.compare_ne_condition d e r b _ _ (hspan.1.symm.trans hspan'.1)

theorem operandAlternatives_pairwise (ts : Array Token) (pos : Nat) :
    (operandAlternatives (T := T)).Pairwise (Excludes rules ts pos) := by
  refine .cons ?_ (.cons ?_ (.cons (by simp) .nil))
  · simp only [List.mem_cons, List.not_mem_nil, or_false]
    rintro q (rfl | rfl)
    · exact negation_excludes_comparison
    · exact negation_excludes_condition
  · intro q hq
    rw [List.mem_singleton.1 hq]
    exact comparison_excludes_condition

section Operand

variable (operand : GrammarParser T (Boolean T))

def booleanOf : GrammarParser T (Boolean T) :=
  Parser.precedence Connective.symbol Boolean.binary operand [[.and], [.or]]

def conditionalOf : GrammarParser T (Command T) :=
  .map (fun (((((_, b), _), c), other), _) =>
      match other with
      | none => .ifThen b c
      | some (_, d) => .ifElse b c d)
    (.seq (.seq (.seq (.seq (.seq (Parser.reserved "if") (booleanOf operand))
      (Parser.reserved "then")) (.rule Category.statements))
      (.opt (.seq (Parser.reserved "else") (.rule Category.statements)))) (Parser.reserved "end"))

def loopOf : GrammarParser T (Command T) :=
  .map (fun ((((_, b), _), c), _) => .loop b c)
    (.seq (.seq (.seq (.seq (Parser.reserved "while") (booleanOf operand)) (Parser.reserved "do"))
      (.rule Category.statements)) (Parser.reserved "end"))

def statementOf : GrammarParser T (Command T) :=
  .alt (.alt (.alt assignment (conditionalOf operand)) (loopOf operand)) printing

def rulesOf : Rules (Tree T)
  | .arith => arith
  | .boolean => booleanOf operand
  | .operand => operand
  | .statements => .sepBy (statementOf operand) (.map (fun _ => .seq) (Parser.reserved ";"))

theorem rulesOf_booleanTerm : rulesOf (booleanTerm (T := T)) = rules := by
  funext i
  cases i <;> rfl

variable {operand}

theorem headway_rulesOf (hc : Parser.consumes (fun _ => true) operand = true)
    (hg : ∀ behind, Parser.guarded (fun _ => true) behind operand = true) :
    Parser.Headway (fun _ => true) (rulesOf operand) := by
  have hb (behind : Bool) : Parser.guarded (fun _ => true) behind (booleanOf operand) = true := by
    simp only [booleanOf, Parser.precedence, Parser.oneOf, Parser.choice, Parser.symbolFor,
      Parser.reserved, List.map_nil, List.foldl_nil, Parser.guarded, Parser.consumes, hc, hg,
      Bool.or_true, Bool.and_self]
  have hassign : Parser.guarded (fun _ => true) false (assignment (T := T)) = true := rfl
  have hprint : Parser.guarded (fun _ => true) false (printing (T := T)) = true := rfl
  have hs : Parser.guarded (fun _ => true) false (statementOf operand) = true := by
    simp only [statementOf, conditionalOf, loopOf, Parser.reserved, Parser.guarded,
      Parser.consumes, hb, hassign, hprint, Bool.or_true, Bool.and_self]
  refine ⟨fun i _ => ?_, fun i => ?_⟩
  · cases i with
    | arith | statements => rfl
    | boolean | operand => exact hc
  · cases i with
    | arith => rfl
    | boolean => exact hb false
    | operand => exact hg false
    | statements =>
      simp only [rulesOf, Parser.reserved, Parser.guarded, hs, Bool.true_and]
      rfl

theorem bodies_runsAgree (h : RunsAgree (rulesOf operand) rules ts depth' depth operand booleanTerm)
    (hp : ∀ {β : Type} (q : GrammarParser T β),
      RunsAgree (rulesOf operand) rules ts depth' depth q q) (i : Category) :
    RunsAgree (rulesOf operand) rules ts depth' depth (rulesOf operand i) (rules i) := by
  have hb : RunsAgree (rulesOf operand) rules ts depth' depth (booleanOf operand) boolean :=
    (h.sepBy (hp _)).sepBy (hp _)
  cases i with
  | arith => exact hp arith
  | boolean => exact hb
  | operand => exact h
  | statements =>
    have hcond : RunsAgree (rulesOf operand) rules ts depth' depth (conditionalOf operand)
        conditional := ((((((hp _).seq hb).seq (hp _)).seq (hp _)).seq (hp _)).seq (hp _)).map _
    have hloop : RunsAgree (rulesOf operand) rules ts depth' depth (loopOf operand) loop :=
      (((((hp _).seq hb).seq (hp _)).seq (hp _)).seq (hp _)).map _
    exact ((((hp assignment).alt hcond).alt hloop).alt (hp printing)).sepBy (hp _)

end Operand

theorem alternative_consumes {p : GrammarParser T (Boolean T)} (hp : p ∈ operandAlternatives) :
    Parser.consumes (fun _ => true) p = true := by
  simp only [operandAlternatives, List.mem_cons, List.not_mem_nil, or_false] at hp
  obtain rfl | rfl | rfl := hp <;> rfl

theorem alternative_guarded {p : GrammarParser T (Boolean T)} (hp : p ∈ operandAlternatives)
    (behind : Bool) : Parser.guarded (fun _ => true) behind p = true := by
  simp only [operandAlternatives, List.mem_cons, List.not_mem_nil, or_false] at hp
  obtain rfl | rfl | rfl := hp <;> cases behind <;> rfl

theorem replies_alternative {p : GrammarParser T (Boolean T)} (hp : p ∈ operandAlternatives)
    (ts : Array Token) (pos : Nat) : Replies rules ts (ts.size - pos) p pos (parseAt p ts pos) :=
  replies_parseAt_of_guarded (alternative_guarded hp false) ts pos

section Order

variable {first : GrammarParser T (Boolean T)} {others : List (GrammarParser T (Boolean T))}
  {rules' : Rules (Tree T)}

theorem choice_runsAgree (h : (first :: others).Perm operandAlternatives)
    (hp : ∀ (q : GrammarParser T (Boolean T)) d, RunsAgree rules' rules ts depth' d q q) :
    RunsAgree rules' rules ts depth' depth (Parser.choice first others) booleanTerm := by
  intro pos
  exact Parser.choice_agrees (operandAlternatives_pairwise ts pos)
    (fun p hmem => ⟨_, _, replies_alternative hmem ts pos⟩) h fun p _ d => hp p d pos

theorem rulesOf_runsAgree (h : (first :: others).Perm operandAlternatives) {α : Type}
    (p : GrammarParser T α) :
    RunsAgree (rulesOf (Parser.choice first others)) rules ts depth' depth p p := by
  refine Parser.run_agrees (fun d' d hp => ?_) p
  exact bodies_runsAgree (choice_runsAgree h fun q e => hp q e) fun q => hp q d

theorem choice_consumes (h : (first :: others).Perm operandAlternatives) :
    Parser.consumes (fun _ => true) (Parser.choice first others) = true :=
  Parser.choice_of_alt (fun _ _ hp hq => Bool.and_eq_true_iff.2 ⟨hp, hq⟩) fun _ hp =>
    alternative_consumes (h.mem_iff.1 hp)

theorem choice_guarded (h : (first :: others).Perm operandAlternatives) (behind : Bool) :
    Parser.guarded (fun _ => true) behind (Parser.choice first others) = true :=
  Parser.choice_of_alt (fun _ _ hp hq => Bool.and_eq_true_iff.2 ⟨hp, hq⟩) fun _ hp =>
    alternative_guarded (h.mem_iff.1 hp) behind

theorem replies_of_runsAgree {α : Type} {p p' : GrammarParser T α}
    (hr : Parser.Headway (fun _ => true) rules')
    (hg' : Parser.guarded (fun _ => true) false p' = true)
    (hg : Parser.guarded (fun _ => true) false p = true)
    (h : RunsAgree rules' rules ts (ts.size - pos) (ts.size - pos) p' p) :
    Replies rules' ts (ts.size - pos) p' pos (parseAt p ts pos) := by
  obtain ⟨r, hr'⟩ := Parser.exists_replies hr hg' (Nat.le_refl pos) (.inl rfl) (by simp)
    (Nat.le_refl (ts.size - pos))
  obtain rfl := h pos hr' (replies_parseAt_of_guarded hg ts pos)
  exact hr'

end Order

theorem rules_runsAgree {α : Type} (p : GrammarParser T α) :
    RunsAgree rules rules ts depth' depth p p := by
  have h : RunsAgree (rulesOf booleanTerm) rules ts depth' depth p p :=
    rulesOf_runsAgree (.refl operandAlternatives) p
  rwa [rulesOf_booleanTerm] at h

/-- At most one of the alternatives of an operand matches at a position, so the order in which they
are tried changes no reply, at one place or in all rules. In particular, no `(` opens both the left
side of a comparison and a condition. -/
theorem operandAlternatives_exclusive (T : Type) [Number T] (ts : Array Token) (pos : Nat) :
    (∀ p ∈ operandAlternatives (T := T),
      Replies rules ts (ts.size - pos) p pos (parseAt p ts pos)) ∧
    (operandAlternatives (T := T)).Pairwise
      (fun p q => parseAt p ts pos = none ∨ parseAt q ts pos = none) ∧
    (∀ (d e : Phrase T .aexp) (r : Relop) (b : Phrase T .bexp) (stop stop' : Nat),
      Spans ts pos stop (Phrase.compare d r e).word →
        ¬ Spans ts pos stop' (Phrase.condition b).word) ∧
    ∀ (first : GrammarParser T (Boolean T)) (others : List (GrammarParser T (Boolean T))),
      (first :: others).Perm operandAlternatives →
        Replies rules ts (ts.size - pos) (Parser.choice first others) pos
          (parseAt booleanTerm ts pos) ∧
        ∀ i, Replies (rulesOf (Parser.choice first others)) ts (ts.size - pos)
          (rulesOf (Parser.choice first others) i) pos (parseAt (rules i) ts pos) := by
  refine ⟨fun p hp => replies_alternative hp ts pos, ?_, ?_, ?_⟩
  · refine (operandAlternatives_pairwise ts pos).imp_of_mem fun {p q} hp hq hpq => ?_
    have hp := replies_alternative hp ts pos
    have hq := replies_alternative hq ts pos
    obtain hnone | ⟨a, ha⟩ := Option.eq_none_or_eq_some (parseAt p ts pos)
    · exact .inl hnone
    · obtain hnone | ⟨b, hb⟩ := Option.eq_none_or_eq_some (parseAt q ts pos)
      · exact .inr hnone
      · exact absurd (hb ▸ hq) (hpq _ _ a b (ha ▸ hp))
  · intro d e r b stop stop' hspan hspan'
    exact Phrase.compare_ne_condition d e r b _ _ (hspan.1.symm.trans hspan'.1)
  · intro first others h
    constructor
    · exact replies_of_runsAgree headway (choice_guarded h false) rfl
        (choice_runsAgree h fun q _ => rules_runsAgree q)
    · intro i
      have hr := headway_rulesOf (choice_consumes h) (choice_guarded h)
      refine replies_of_runsAgree hr (hr.guarded i) (headway.guarded i) ?_
      exact bodies_runsAgree (choice_runsAgree h fun q _ => rulesOf_runsAgree h q)
        (rulesOf_runsAgree h) i

/-- A comparison whose left side is in parentheses, read by the alternatives in reversed order. -/
theorem operandAlternatives_exclusive_reversed :
    let ts := #[.reserved "(", .id "x", .reserved ")", .reserved "<", .int "1"]
    let reversed : GrammarParser Int64 (Boolean Int64) :=
      Parser.choice condition [comparison, negation]
    [condition, comparison, negation].Perm (operandAlternatives (T := Int64)) ∧
      Replies (rulesOf reversed) ts 5 reversed 0
        (some (5, .compare .lt (.var "x") (.lit 1))) := by
  intro ts reversed
  have h : [condition, comparison, negation].Perm (operandAlternatives (T := Int64)) :=
    List.reverse_perm operandAlternatives
  have hparse : parseAt (booleanTerm (T := Int64)) ts 0 =
      some (5, .compare .lt (.var "x") (.lit 1)) := by
    decide
  exact ⟨h, hparse ▸ ((operandAlternatives_exclusive Int64 ts 0).2.2.2 _ _ h).2 .operand⟩

end ImpLang.Grammar
