import Mathlib
import ImpLang.Proofs.Command.Widening
import ImpLang.Proofs.Grammar.Translation
import ImpLang.Proofs.Program.Nodes
import ImpLang.Proofs.Program.Canonical

namespace ImpLang

namespace Number

theorem literal?_toInt {text : String} {n : Int64} (h : literal? text = some n) :
    literal? text = some n.toInt := by
  obtain ⟨m, hm, hn⟩ := Option.bind_eq_some_iff.1 h
  obtain rfl : toInt n = m := ofInt?_eq_some_iff.1 hn
  exact Literal.grouped?_of_signed? hm

theorem exists_literal?_of_le {text : String} {n : Int} (htext : (Token.int text).IsLexeme)
    (h : literal? text = some n) (hn : n ≤ 2 ^ 63 - 1) :
    ∃ m : Int64, literal? text = some m ∧ m.toInt = n := by
  have hpos : 0 ≤ n := nonneg_of_literal? htext h
  have digits {T : Type} [Number T] : literal? text = ofInt? (T := T) n := by
    have hT := literal?_digits (T := T) htext.1 htext.2
    have hZ := literal?_digits (T := Int) htext.1 htext.2
    rw [Token.int, String.ofList_toList] at hT hZ
    rw [hT, Option.some.inj (h.symm.trans hZ)]
  cases hm : int64? n with
  | none =>
    have := int64?_eq_none_iff.1 hm
    omega
  | some m =>
    have hmn : toInt m = n := ofInt?_eq_some_iff.1 hm
    exact ⟨m, digits.trans hm, hmn⟩

end Number

def Grammar.Translation.widening : Translation Int64 Int where
  literal := Int64.toInt
  name x := x
  arith := Arith.widen
  boolean := Boolean.widen
  command := Command.widen
  denotes := Number.literal?_toInt
  lit _ := rfl
  var _ := rfl
  binary _ _ _ := rfl
  compare _ _ _ := rfl
  not _ := rfl
  connect _ _ _ := rfl
  assign _ _ := rfl
  seq _ _ := rfl
  ifThen _ _ := rfl
  ifElse _ _ _ := rfl
  loop _ _ := rfl
  print _ := rfl

def Node.widen : Node Int64 → Node Int
  | number n => .number n.toInt
  | name x => .name x
  | operator s => .operator s

namespace Arith

theorem render_widen (e : Arith Int64) : e.widen.render = e.render := by
  induction e with
  | lit n => rfl
  | var x => rfl
  | binary op l r ihl ihr => simp only [widen, render, ihl, ihr]

theorem nodes_widen (e : Arith Int64) : e.widen.nodes = e.nodes.map Node.widen := by
  induction e with
  | lit n => rfl
  | var x => rfl
  | binary op l r ihl ihr => simp [widen, nodes, ihl, ihr, Node.widen]

end Arith

namespace Boolean

theorem render_widen (b : Boolean Int64) : b.widen.render = b.render := by
  induction b with
  | compare rel l r => simp only [widen, render, Arith.render_widen]
  | not b ih => simp only [widen, render, ih]
  | binary op l r ihl ihr => simp only [widen, render, ihl, ihr]

theorem nodes_widen (b : Boolean Int64) : b.widen.nodes = b.nodes.map Node.widen := by
  induction b with
  | compare rel l r => simp [widen, nodes, Arith.nodes_widen, Node.widen]
  | not b ih => simp [widen, nodes, ih, Node.widen]
  | binary op l r ihl ihr => simp [widen, nodes, ihl, ihr, Node.widen]

end Boolean

namespace Command

open Grammar Translation

theorem render_widen (c : Command Int64) : c.widen.render = c.render := by
  induction c with
  | assign x e | print e => simp only [widen, render, Arith.render_widen]
  | seq c d ihc ihd => simp only [widen, render, ihc, ihd]
  | ifThen b c ih | loop b c ih => simp only [widen, render, Boolean.render_widen, ih]
  | ifElse b c d ihc ihd => simp only [widen, render, Boolean.render_widen, ihc, ihd]

theorem nodes_widen (c : Command Int64) : c.widen.nodes = c.nodes.map Node.widen := by
  induction c with
  | assign x e | print e => simp [widen, nodes, Arith.nodes_widen, Node.widen]
  | seq c d ihc ihd => simp [widen, nodes, ihc, ihd, Node.widen]
  | ifThen b c ih | loop b c ih => simp [widen, nodes, Boolean.nodes_widen, ih, Node.widen]
  | ifElse b c d ihc ihd => simp [widen, nodes, Boolean.nodes_widen, ihc, ihd, Node.widen]

theorem size_widen (c : Command Int64) : c.widen.size = c.size := by
  rw [← length_nodes, ← length_nodes, nodes_widen, List.length_map]

/-- All literals of the program are at most as large as the largest integer of 64 bits. -/
def LiteralsFit (c : Command Int) : Prop := ∀ n, .number n ∈ c.nodes → n ≤ 2 ^ 63 - 1

theorem literalsFit_widen (c : Command Int64) : c.widen.LiteralsFit := by
  intro n hn
  rw [nodes_widen] at hn
  obtain ⟨m, -, hm⟩ := List.mem_map.1 hn
  cases m with
  | number m =>
    cases hm
    have hle := Int64.toInt_le m
    have hmax := Int64.toInt_maxValue
    omega
  | name | operator => cases hm

theorem derives_widen {ts : List Token} {c : Command Int64} (h : Derives .statements ts c) :
    Derives .statements ts c.widen := by
  have hw := widening.derives h
  rwa [widening, Token.map_rename_id] at hw

theorem ofTokens?_widen {ts : Array Token} {c : Command Int64} (h : ofTokens? ts = some c) :
    ofTokens? ts = some c.widen :=
  ofTokens?_eq_some.2 (derives_widen (ofTokens?_eq_some.1 h))

variable {source : String}

theorem ofSource_eq_ok_widen {c : Command Int64} (h : ofSource source = .ok c) :
    ofSource source = .ok c.widen := by
  obtain ⟨ts, hts, hc⟩ := ofSource_eq_ok.1 h
  exact ofSource_eq_ok.2 ⟨ts, hts, derives_widen hc⟩

theorem exists_ofSource_of_literalsFit {d : Command Int} (h : ofSource source = .ok d)
    (hd : d.LiteralsFit) : ∃ c : Command Int64, ofSource source = .ok c ∧ c.widen = d := by
  obtain ⟨ts, hts, p, hp, rfl⟩ := ofSource_eq_ok.1 h
  have hcovers : ∀ t ∈ ts, widening.Covers t := by
    rintro _ ht text rfl n hn
    rw [← hp] at ht
    have hlexeme := hts.lexeme_of_mem _ (hp ▸ ht)
    exact Number.exists_literal?_of_le hlexeme hn (hd n (p.number_mem_nodes ht hn))
  rw [← Token.map_rename_id ts] at hp
  obtain ⟨c, hc, hcd⟩ := (derives_iff hcovers).1 ⟨p, hp, rfl⟩
  exact ⟨c, ofSource_eq_ok.2 ⟨ts, hts, hc⟩, hcd⟩

theorem ofSource_eq_error_of_int {e : SyntaxError} (h : ofSource (T := Int) source = .error e) :
    ofSource (T := Int64) source = .error e := by
  cases htokens : tokenize source with
  | error l =>
    rw [ofSource_of_tokenize_eq_error htokens] at h ⊢
    exact congrArg Except.error (Except.error.inj h)
  | ok ts =>
    have hint : ∀ d : Command Int, ofSource source ≠ .ok d := by
      rintro d hd
      cases hd.symm.trans h
    rw [ofSource_eq_grammatical_of_tokenize htokens hint] at h
    cases h
    exact ofSource_eq_grammatical_of_tokenize htokens fun c hc => hint _ (ofSource_eq_ok_widen hc)

theorem ofSource_eq_grammatical_of_literals {d : Command Int} (h : ofSource source = .ok d)
    (hd : ¬ d.LiteralsFit) : ofSource (T := Int64) source = .error .grammatical := by
  obtain ⟨ts, hts, -⟩ := ofSource_eq_ok.1 h
  refine ofSource_eq_grammatical_of_tokenize (tokenize_eq_ok.2 hts) fun c hc => hd ?_
  cases h.symm.trans (ofSource_eq_ok_widen hc)
  exact c.literalsFit_widen

/-- A source is the same program over 64-bit integers and over all integers, or has the same error,
but that over 64-bit integers a literal that is too large breaks the rules of the grammar. -/
theorem ofSource_widen (source : String) :
    ((∃ c : Command Int64, ofSource source = .ok c) ↔
      ∃ d : Command Int, ofSource source = .ok d ∧ d.LiteralsFit) ∧
    (∀ (c : Command Int64) (d : Command Int), ofSource source = .ok c → ofSource source = .ok d →
      d = c.widen ∧ d.render = c.render ∧ d.size = c.size) ∧
    (∀ e, ofSource (T := Int) source = .error e → ofSource (T := Int64) source = .error e) ∧
    (∀ d : Command Int, ofSource source = .ok d → ¬ d.LiteralsFit →
      ofSource (T := Int64) source = .error .grammatical) ∧
    ∀ (ts : Array Token) (c : Command Int64), ofTokens? ts = some c →
      ofTokens? ts = some c.widen := by
  refine ⟨⟨?_, ?_⟩, ?_, ?_, ?_, ?_⟩
  · rintro ⟨c, hc⟩
    exact ⟨c.widen, ofSource_eq_ok_widen hc, c.literalsFit_widen⟩
  · rintro ⟨d, hd, hfit⟩
    obtain ⟨c, hc, -⟩ := exists_ofSource_of_literalsFit hd hfit
    exact ⟨c, hc⟩
  · intro c d hc hd
    cases hd.symm.trans (ofSource_eq_ok_widen hc)
    exact ⟨rfl, c.render_widen, c.size_widen⟩
  · exact fun e he => ofSource_eq_error_of_int he
  · exact fun d hd hfit => ofSource_eq_grammatical_of_literals hd hfit
  · exact fun ts c hc => ofTokens?_widen hc

/-- The literal that is too large stands in a branch that may be left out, which is not left out. -/
theorem ofSource_widen_of_large_literal :
    ofSource "if x < 1 then x := 9223372036854775807 else x := 9223372036854775808 end" =
      .ok (.ifElse (.compare .lt (.var "x") (.lit (1 : Int)))
        (.assign "x" (.lit 9223372036854775807)) (.assign "x" (.lit 9223372036854775808))) ∧
    ofSource (T := Int64)
        "if x < 1 then x := 9223372036854775807 else x := 9223372036854775808 end" =
      .error .grammatical := by
  have h : ofSource "if x < 1 then x := 9223372036854775807 else x := 9223372036854775808 end" =
      .ok (.ifElse (.compare .lt (.var "x") (.lit (1 : Int)))
        (.assign "x" (.lit 9223372036854775807)) (.assign "x" (.lit 9223372036854775808))) := by
    decide +kernel
  refine ⟨h, (ofSource_widen _).2.2.2.1 _ h fun hfit => ?_⟩
  have hle := hfit 9223372036854775808 (by decide)
  omega

end Command

end ImpLang
