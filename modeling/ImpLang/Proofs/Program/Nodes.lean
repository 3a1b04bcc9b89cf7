import Mathlib
import ImpLang.Proofs.Program.Source

namespace ImpLang

variable {T : Type}

/-- What a node of a tree is labelled with. The keywords of commands are operators, too. -/
inductive Node (T : Type) where
  | number (n : T)
  | name (x : String)
  | operator (symbol : String)
deriving DecidableEq, Repr

namespace Arith

def nodes : Arith T → List (Node T)
  | lit n => [.number n]
  | var x => [.name x]
  | binary op l r => l.nodes ++ .operator op.symbol :: r.nodes

theorem length_nodes (e : Arith T) : e.nodes.length = e.size := by
  induction e with
  | lit n => rfl
  | var x => rfl
  | binary op l r ihl ihr =>
    simp only [nodes, size, List.length_append, List.length_cons]
    omega

end Arith

namespace Boolean

def nodes : Boolean T → List (Node T)
  | compare rel l r => l.nodes ++ .operator rel.symbol :: r.nodes
  | not b => .operator "not" :: b.nodes
  | binary op l r => l.nodes ++ .operator op.symbol :: r.nodes

theorem length_nodes (b : Boolean T) : b.nodes.length = b.size := by
  induction b with
  | compare rel l r =>
    simp only [nodes, size, List.length_append, List.length_cons, Arith.length_nodes]
    omega
  | not b ih =>
    simp only [nodes, size, List.length_cons]
    omega
  | binary op l r ihl ihr =>
    simp only [nodes, size, List.length_append, List.length_cons]
    omega

end Boolean

namespace Command

def nodes : Command T → List (Node T)
  | assign x e => .name x :: .operator ":=" :: e.nodes
  | seq c d => c.nodes ++ .operator ";" :: d.nodes
  | ifThen b c => .operator "if" :: (b.nodes ++ c.nodes)
  | ifElse b c d => .operator "if" :: (b.nodes ++ (c.nodes ++ d.nodes))
  | loop b c => .operator "while" :: (b.nodes ++ c.nodes)
  | print e => .operator "print" :: e.nodes

theorem length_nodes (c : Command T) : c.nodes.length = c.size := by
  induction c with
  | assign x e =>
    simp only [nodes, size, List.length_cons, Arith.length_nodes]
    omega
  | seq c d ihc ihd =>
    simp only [nodes, size, List.length_append, List.length_cons]
    omega
  | ifThen b c ih | loop b c ih =>
    simp only [nodes, size, List.length_append, List.length_cons, Boolean.length_nodes]
    omega
  | ifElse b c d ihc ihd =>
    simp only [nodes, size, List.length_append, List.length_cons, Boolean.length_nodes]
    omega
  | print e =>
    simp only [nodes, size, List.length_cons, Arith.length_nodes]
    omega

end Command

namespace Token

/-- The tokens that hold others together and make no node. -/
def framing : List Token := ["(", ")", "then", "else", "do", "end"].map reserved

def content (ts : List Token) : List Token := ts.filter (· ∉ framing)

/-- What the token is written for. Equality has two spellings. -/
inductive Stands [Number T] : Token → Node T → Prop where
  | number {text : String} {n : T} (denotes : Number.literal? text = some n) :
    Stands (.int text) (.number n)
  | name (x : String) : Stands (.id x) (.name x)
  | operator (symbol : String) : Stands (.reserved symbol) (.operator symbol)
  | equality : Stands (.reserved "==") (.operator "=")

theorem content_append (ts us : List Token) : content (ts ++ us) = content ts ++ content us :=
  List.filter_append ts us

theorem content_framing {t : Token} (h : t ∈ framing) (ts : List Token) :
    content (t :: ts) = content ts := by
  simp [content, h]

theorem content_cons {t : Token} (h : t ∉ framing) (ts : List Token) :
    content (t :: ts) = t :: content ts := by
  simp [content, h]

theorem not_mem_framing_of_tag {t : Token} (h : t.tag ≠ .reserved) : t ∉ framing := by
  intro ht
  obtain ⟨s, -, rfl⟩ := List.mem_map.1 ht
  exact h rfl

/-- The tokens, without those that hold others together, stand for the nodes. -/
def Spell [Number T] (ts : List Token) (ns : List (Node T)) : Prop :=
  List.Forall₂ Stands (content ts) ns

variable [Number T] {t : Token} {n : Node T} {ts us : List Token} {ns ms : List (Node T)}

theorem spell_nil : Spell [] ([] : List (Node T)) := .nil

theorem Spell.append (h : Spell ts ns) (h' : Spell us ms) : Spell (ts ++ us) (ns ++ ms) := by
  rw [Spell, content_append]
  exact List.rel_append h h'

theorem Spell.cons (ht : t ∉ framing) (hn : Stands t n) (h : Spell ts ns) :
    Spell (t :: ts) (n :: ns) := by
  rw [Spell, content_cons ht]
  exact .cons hn h

theorem Spell.exists_stands (h : Spell ts ns) (ht : t ∈ content ts) : ∃ n ∈ ns, Stands t n := by
  obtain ⟨i, hi, rfl⟩ := List.mem_iff_getElem.1 ht
  have hlt : i < ns.length := by rwa [← List.Forall₂.length_eq h]
  exact ⟨ns[i], List.getElem_mem hlt, List.Forall₂.get h hi hlt⟩

theorem Spell.framed (ht : t ∈ framing) (h : Spell ts ns) : Spell (t :: ts) ns := by
  rwa [Spell, content_framing ht]

theorem Spell.closed (ht : t ∈ framing) (h : Spell ts ns) : Spell (ts ++ [t]) ns := by
  have happend := h.append (spell_nil.framed ht)
  rwa [List.append_nil] at happend

theorem Spell.keyword {s : String} (hs : Token.reserved s ∉ framing) (h : Spell ts ns) :
    Spell (.reserved s :: ts) (.operator s :: ns) :=
  h.cons hs (.operator s)

end Token

namespace Grammar

open Token

variable {κ : Kind}

def Kind.nodes : {κ : Kind} → κ.Value T → List (Node T)
  | .arith => Arith.nodes
  | .boolean => Boolean.nodes
  | .command => Command.nodes

theorem nodes_join {l : Level κ} (o : l.Op) (v w : κ.Value T) :
    Kind.nodes (Kind.join o.1 v w) =
      Kind.nodes v ++ .operator (Kind.symbol o.1) :: Kind.nodes w := by
  cases l <;> rfl

theorem Level.Op.not_framing {l : Level κ} (o : l.Op) : o.token ∉ framing := by
  have h : ∀ t ∈ l.tokens, t ∉ framing := by cases l <;> decide
  exact h _ o.token_mem_tokens

theorem Relop.not_framing (r : Relop) : r.token ∉ framing := by
  have h : ∀ r ∈ relations, Token.reserved r.1 ∉ framing := by decide
  exact h r.1 r.2

variable [Number T]

theorem Relop.stands (r : Relop) : Stands r.token (.operator r.1.2.symbol : Node T) := by
  have h : ∀ r ∈ relations, r.1 = r.2.symbol ∨ r.1 = "==" ∧ r.2.symbol = "=" := by decide
  rw [token]
  obtain hr | ⟨hr, hrel⟩ := h r.1 r.2
  · rw [hr]
    exact .operator _
  · rw [hr, hrel]
    exact .equality

theorem Phrase.spell_value {k : Symbol κ} (d : Phrase T k) : Spell d.word (Kind.nodes d.value) := by
  induction d with
  | int text n denotes =>
    exact spell_nil.cons (not_mem_framing_of_tag Tag.noConfusion) (.number denotes)
  | name x => exact spell_nil.cons (not_mem_framing_of_tag Tag.noConfusion) (.name x)
  | group a ih | condition a ih =>
    have hclose := ih.closed (t := .reserved ")") (by decide)
    exact hclose.framed (by decide)
  | not b ih => exact ih.keyword (by decide)
  | compare a r b iha ihb => exact iha.append (ihb.cons r.not_framing r.stands)
  | assign x a ih =>
    have ha := ih.keyword (s := ":=") (by decide)
    exact ha.cons (not_mem_framing_of_tag Tag.noConfusion) (.name x)
  | ifThen b c ihb ihc =>
    have hend := ihc.closed (t := .reserved "end") (by decide)
    have hthen := hend.framed (t := .reserved "then") (by decide)
    exact (ihb.append hthen).keyword (by decide)
  | ifElse b c d ihb ihc ihd =>
    have hend := ihd.closed (t := .reserved "end") (by decide)
    have helse := hend.framed (t := .reserved "else") (by decide)
    have hthen := (ihc.append helse).framed (t := .reserved "then") (by decide)
    exact (ihb.append hthen).keyword (by decide)
  | loop b c ihb ihc =>
    have hend := ihc.closed (t := .reserved "end") (by decide)
    have hdo := hend.framed (t := .reserved "do") (by decide)
    exact (ihb.append hdo).keyword (by decide)
  | print a ih => exact ih.keyword (by decide)
  | one only ih => exact ih
  | more front o last ihf ihl =>
    have h := ihf.append (ihl.cons o.not_framing (.operator (Kind.symbol o.1)))
    rwa [← nodes_join] at h

theorem Phrase.number_mem_nodes {k : Symbol κ} (d : Phrase T k) {text : String} {n : T}
    (ht : Token.int text ∈ d.word) (hn : Number.literal? text = some n) :
    .number n ∈ Kind.nodes d.value := by
  have hc : Token.int text ∈ content d.word :=
    List.mem_filter.2 ⟨ht, by simpa using not_mem_framing_of_tag Tag.noConfusion⟩
  obtain ⟨m, hm, hs⟩ := d.spell_value.exists_stands hc
  cases hs with
  | number denotes =>
    cases hn.symm.trans denotes
    exact hm

end Grammar

/-- A program has as many nodes as tokens that do not only hold others together: each of these
stands for one node, in the order of the source. -/
theorem Command.size_of_ofTokens? (T : Type) [Number T] (ts : Array Token) (c : Command T)
    (h : ofTokens? ts = some c) :
    c.size = ts.toList.countP (· ∉ Token.framing) ∧
      List.Forall₂ Token.Stands (ts.toList.filter (· ∉ Token.framing)) c.nodes := by
  obtain ⟨d, hw, rfl⟩ := ofTokens?_eq_some.1 h
  have hs : Token.Spell d.word (Command.nodes d.value) := d.spell_value
  rw [hw] at hs
  refine ⟨?_, hs⟩
  rw [← Command.length_nodes, ← List.Forall₂.length_eq hs]
  exact List.countP_eq_length_filter.symm

/-- Names that are spelled like keywords or parentheses count, doubled parentheses do not. -/
theorem Command.size_of_ofTokens?_odd_names :
    let ts : Array Token := #[.reserved "if", .id "then", .reserved "==", .reserved "(",
      .reserved "(", .int "007", .reserved ")", .reserved ")", .reserved "then", .id "(",
      .reserved ":=", .id "end", .reserved ";", .reserved "print", .int "1", .reserved "else",
      .reserved "print", .int "2", .reserved "end"]
    let c : Command Int64 := .ifElse (.compare .eq (.var "then") (.lit 7))
      (.seq (.assign "(" (.var "end")) (.print (.lit 1))) (.print (.lit 2))
    ofTokens? ts = some c ∧ c.size = 12 ∧ c.size = ts.toList.countP (· ∉ Token.framing) ∧
      List.Forall₂ Token.Stands (ts.toList.filter (· ∉ Token.framing)) c.nodes := by
  intro ts c
  have h : ofTokens? ts = some c := by decide +kernel
  exact ⟨h, rfl, size_of_ofTokens? Int64 ts c h⟩

end ImpLang
