import Mathlib
import ImpLang.Store.Basic
import ImpLang.Proofs.Token.Spacing

namespace ImpLang

namespace Lexer

/-- A letter, then letters, digits and underscores. -/
def IsWord (text : List Char) : Prop :=
  ∃ c cs, text = c :: cs ∧ c.isAlpha ∧ ∀ d ∈ cs, isWordChar d

theorem isWord_of_isLexeme_id {x : String} (h : (Token.id x).IsLexeme) : IsWord x.toList := h.1

end Lexer

namespace Store

variable {T : Type}

def names (s : Store T) : List String := s.bindings.map Prod.fst

theorem ext {s u : Store T} (h : s.bindings = u.bindings) : s = u := by
  cases s
  cases u
  cases h
  rfl

theorem put_append {x : String} {v : T} {l : List (String × T)} (h : ∀ b ∈ l, b.1 < x) :
    put x v l = l ++ [(x, v)] := by
  induction l with
  | nil => rfl
  | cons b l ih =>
    have hb : b.1 < x := h b List.mem_cons_self
    have hlt : ¬ x < b.1 := fun hx => String.lt_irrefl x (String.lt_trans hx hb)
    have hne : x ≠ b.1 := fun hx => String.lt_irrefl x (hx ▸ hb)
    have hl := ih fun b' hb' => h b' (List.mem_cons_of_mem b hb')
    simp [put, hlt, hne, hl]

theorem ofList_bindings (s : Store T) : ofList s.bindings = s := by
  -- The names are in order, so each insertion puts its binding behind the ones before.
  have hl : ∀ (l : List (String × T)) (u : Store T),
      (u.bindings ++ l).Pairwise (fun a b => a.1 < b.1) →
      (l.foldl (fun u b => u.insert b.1 b.2) u).bindings = u.bindings ++ l := by
    intro l
    induction l with
    | nil => exact fun u _ => (List.append_nil _).symm
    | cons b l ih =>
      intro u hu
      have hb : (u.insert b.1 b.2).bindings = u.bindings ++ [b] :=
        put_append fun a ha => (List.pairwise_append.1 hu).2.2 a ha b List.mem_cons_self
      rw [List.append_cons, ← hb] at hu ⊢
      exact ih _ hu
  exact ext (hl s.bindings empty s.sorted)

def HasWords (s : Store T) : Prop := ∀ x ∈ s.names, Lexer.IsWord x.toList

theorem hasWords_empty : (empty : Store T).HasWords := by
  intro x hx
  cases hx

end Store

end ImpLang
