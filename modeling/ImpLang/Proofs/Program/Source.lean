import ImpLang.Proofs.Grammar.Longest
import ImpLang.Proofs.Token.Spacing

namespace ImpLang

open Grammar Lexer

variable {T : Type} [Number T]

namespace Command

theorem ofTokens?_eq_some {ts : Array Token} {c : Command T} :
    ofTokens? ts = some c ↔ Derives .statements ts.toList c := by
  simp [ofTokens?, parseAt_program_iff]

theorem ofSource_eq_ok {source : String} {c : Command T} :
    ofSource source = .ok c ↔ ∃ ts, Munches source.toList ts ∧ Derives .statements ts c := by
  constructor
  · intro h
    unfold ofSource at h
    split at h
    · cases h
    · rename_i ts hts
      split at h
      · cases h
      · rename_i d hd
        cases h
        exact ⟨ts, tokenize_eq_ok.1 hts, ofTokens?_eq_some.1 hd⟩
  · rintro ⟨ts, hts, hc⟩
    have hd : ofTokens? ts.toArray = some c := ofTokens?_eq_some.2 hc
    rw [ofSource, tokenize_eq_ok.2 hts]
    simp only [hd]

theorem ofSource_of_tokenize_eq_error {source : String} {e : LexError}
    (h : tokenize source = .error e) : ofSource (T := T) source = .error (.lexical e) := by
  rw [ofSource, h]

theorem ofSource_eq_grammatical_of_tokenize {source : String} {ts : List Token}
    (h : tokenize source = .ok ts) (hn : ∀ c : Command T, ofSource source ≠ .ok c) :
    ofSource (T := T) source = .error .grammatical := by
  cases hc : ofTokens? (T := T) ts.toArray with
  | none => simp only [ofSource, h, hc]
  | some c => exact absurd (by simp only [ofSource, h, hc]) (hn c)

end Command

end ImpLang
