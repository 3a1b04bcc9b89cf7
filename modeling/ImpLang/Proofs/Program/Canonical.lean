import ImpLang.Proofs.Program.Source

namespace ImpLang

variable {T : Type} [Number T]

/-- A letter, then letters, digits and underscores, and no keyword. -/
abbrev IsName (x : String) : Prop := (Token.id x).IsLexeme

namespace Arith

def Canonical : Arith T → Prop
  | lit n => 0 ≤ Number.toInt n
  | var x => IsName x
  | binary _ l r => l.Canonical ∧ r.Canonical

end Arith

namespace Boolean

def Canonical : Boolean T → Prop
  | compare _ l r => l.Canonical ∧ r.Canonical
  | not b => b.Canonical
  | binary _ l r => l.Canonical ∧ r.Canonical

end Boolean

namespace Command

def isSeq : Command T → Bool
  | seq _ _ => true
  | _ => false

/-- Nowhere a sequence is the second part of a sequence. -/
def Canonical : Command T → Prop
  | assign x e => IsName x ∧ e.Canonical
  | seq c d => c.Canonical ∧ d.Canonical ∧ d.isSeq = false
  | ifThen b c => b.Canonical ∧ c.Canonical
  | ifElse b c d => b.Canonical ∧ c.Canonical ∧ d.Canonical
  | loop b c => b.Canonical ∧ c.Canonical
  | print e => e.Canonical

end Command

namespace Number

theorem nonneg_of_literal? {text : String} {n : T} (htext : (Token.int text).IsLexeme)
    (h : literal? text = some n) : 0 ≤ toInt n := by
  have hd := literal?_digits (T := T) htext.1 htext.2
  rw [Token.int, String.ofList_toList, h] at hd
  rw [ofInt?_eq_some_iff.1 hd.symm]
  exact Int.natCast_nonneg _

end Number

namespace Grammar

def Kind.Canonical : {κ : Kind} → κ.Value T → Prop
  | .arith => Arith.Canonical
  | .boolean => Boolean.Canonical
  | .command => Command.Canonical

namespace Phrase

theorem isSeq_value (d : Phrase T .statement) : Command.isSeq d.value = false := by
  cases d <;> rfl

theorem canonical_join {κ : Kind} {l : Level κ} (front : κ.Value T) (o : l.Op)
    (last : Phrase T l.element) (hf : Kind.Canonical front) (hl : Kind.Canonical last.value) :
    Kind.Canonical (Kind.join o.1 front last.value) := by
  cases l with
  | product | sum | conjunction | disjunction => exact ⟨hf, hl⟩
  | sequence => exact ⟨hf, hl, last.isSeq_value⟩

theorem canonical_value {κ : Kind} {k : Symbol κ} (d : Phrase T k)
    (h : ∀ t ∈ d.word, t.IsLexeme) : Kind.Canonical d.value := by
  induction d with
  | int text n denotes =>
    simp only [word, List.forall_mem_cons] at h
    exact Number.nonneg_of_literal? h.1 denotes
  | name x =>
    simp only [word, List.forall_mem_cons] at h
    exact h.1
  | group a ih | condition a ih =>
    simp only [word, List.forall_mem_cons, List.forall_mem_append] at h
    exact ih h.2.1
  | not a ih | print a ih =>
    simp only [word, List.forall_mem_cons] at h
    exact ih h.2
  | compare a r b iha ihb =>
    simp only [word, List.forall_mem_cons, List.forall_mem_append] at h
    obtain ⟨ha, -, hb⟩ := h
    exact ⟨iha ha, ihb hb⟩
  | assign x a ih =>
    simp only [word, List.forall_mem_cons] at h
    obtain ⟨hx, -, ha⟩ := h
    exact ⟨hx, ih ha⟩
  | ifThen b c ihb ihc | loop b c ihb ihc =>
    simp only [word, List.forall_mem_cons, List.forall_mem_append] at h
    obtain ⟨-, hb, -, hc, -⟩ := h
    exact ⟨ihb hb, ihc hc⟩
  | ifElse b c d ihb ihc ihd =>
    simp only [word, List.forall_mem_cons, List.forall_mem_append] at h
    obtain ⟨-, hb, -, hc, -, hd, -⟩ := h
    exact ⟨ihb hb, ihc hc, ihd hd⟩
  | one only ih => exact ih h
  | more front o last ihf ihl =>
    simp only [word, List.forall_mem_cons, List.forall_mem_append] at h
    obtain ⟨hf, -, hl⟩ := h
    exact canonical_join _ o last (ihf hf) (ihl hl)

end Phrase

end Grammar

theorem Command.canonical_of_ofSource {source : String} {c : Command T}
    (h : ofSource source = .ok c) : c.Canonical := by
  obtain ⟨ts, hts, d, rfl, rfl⟩ := ofSource_eq_ok.1 h
  exact d.canonical_value hts.lexeme_of_mem

end ImpLang
