import ImpLang.Proofs.Token.MaximalMunch

namespace ImpLang

abbrev Token.IsLexeme (t : Token) : Prop := Lexer.Lexeme t.tag t.text.toList

namespace Lexer

variable {tag : Tag} {t : Token} {c : Char} {text cs rest gap more : List Char}
  {ts us : List Token}

theorem isWordChar_of_isAlpha (h : c.isAlpha) : isWordChar c := by
  simp [isWordChar, Char.isAlphanum, h]

theorem isWordChar_of_isDigit (h : c.isDigit) : isWordChar c := by
  simp [isWordChar, Char.isAlphanum, h]

theorem not_blank_of_isWordChar (h : isWordChar c) : isBlank c = false :=
  (not_trivia_of_word h).1

theorem symbols_not_blank : ∀ s ∈ symbols, ∀ c ∈ s.toList, isBlank c = false := by
  have h : ∀ s ∈ symbols, s.toList.all (fun c => !isBlank c) = true := by decide
  intro s hs c hc
  simpa using List.all_eq_true.1 (h s hs) c hc

theorem Lexeme.not_blank (h : Lexeme tag text) : ∀ c ∈ text, isBlank c = false := by
  have word {c : Char} {cs : List Char} (hc : c.isAlpha) (hcs : ∀ d ∈ cs, isWordChar d) :
      ∀ d ∈ c :: cs, isBlank d = false := by
    intro d hd
    apply not_blank_of_isWordChar
    obtain rfl | hd := List.mem_cons.1 hd
    · exact isWordChar_of_isAlpha hc
    · exact hcs d hd
  cases tag with
  | reserved =>
    obtain hk | hs := h
    · obtain ⟨c, cs, htext, hc, hcs⟩ := keyword_word _ hk
      rw [String.toList_ofList] at htext
      rw [htext]
      exact word hc hcs
    · have hb := symbols_not_blank _ hs
      rwa [String.toList_ofList] at hb
  | int =>
    intro c hc
    exact not_blank_of_isWordChar (isWordChar_of_isDigit (h.2 c hc))
  | id =>
    obtain ⟨⟨c, cs, rfl, hc, hcs⟩, -⟩ := h
    exact word hc hcs

theorem Longest.of_lexeme (h : t.IsLexeme) : Longest t t.text.toList :=
  ⟨h, fun _ _ hpre _ => hpre.length_le⟩

theorem prefix_of_not_blank (hc : isBlank c) (hpre : text <+: cs ++ c :: rest)
    (htext : ∀ d ∈ text, isBlank d = false) : text <+: cs := by
  obtain h | ⟨tail, rfl⟩ := List.prefix_or_prefix_of_prefix hpre (List.prefix_append cs _)
  · exact h
  · -- What goes beyond `cs` would begin with the blank.
    cases tail with
    | nil => simp
    | cons d tail =>
      have hd := (List.prefix_append_right_inj cs).1 hpre
      obtain ⟨rfl, -⟩ := List.cons_prefix_cons.1 hd
      have := htext d (by simp)
      simp_all

theorem Longest.before_blank (h : Longest t cs) (hc : isBlank c) : Longest t (cs ++ c :: rest) := by
  refine ⟨h.1, fun tag text hpre htext => ?_⟩
  apply h.2 tag text _ htext
  exact prefix_of_not_blank hc hpre htext.not_blank

theorem LineEnds.append_line (h : LineEnds cs) : LineEnds (cs ++ '\n' :: rest) := by
  cases h with
  | ofText => exact .lineFeed
  | lineFeed => exact .lineFeed
  | carriageReturn => exact .carriageReturn

theorem Gap.append_line (h : Gap gap cs) : Gap gap (cs ++ '\n' :: rest) := by
  induction h with
  | nil => exact .nil
  | blank hc _ ih => exact .blank hc ih
  | comment hline hend _ ih =>
    apply Gap.comment hline _ ih
    rw [← List.append_assoc]
    exact hend.append_line

theorem Munches.append_line (h : Munches cs ts) (hm : Munches more us) :
    Munches (cs ++ '\n' :: more) (ts ++ us) := by
  have hn : Munches ('\n' :: more) us := .blank (by decide) hm
  induction h with
  | done hgap =>
    have hg : Gap _ ('\n' :: more) := hgap.append_line
    exact hg.munches hn
  | @token gap t rest ts hgap hlongest _ ih =>
    have hg : Gap gap (t.text.toList ++ rest ++ '\n' :: more) := hgap.append_line
    have hl : Longest t (t.text.toList ++ rest ++ '\n' :: more) :=
      hlongest.before_blank (by decide)
    rw [List.append_assoc, List.append_assoc]
    rw [List.append_assoc] at hg hl
    exact .token hg hl ih

theorem Munches.lexeme_of_mem (h : Munches cs ts) : ∀ t ∈ ts, t.IsLexeme := by
  induction h with
  | done => simp
  | token _ hlongest _ ih =>
    intro u hu
    obtain rfl | hu := List.mem_cons.1 hu
    · exact hlongest.1
    · exact ih u hu

theorem munches_singleton (h : t.IsLexeme) : Munches t.text.toList [t] := by
  have hl : Longest t (t.text.toList ++ []) := by
    rw [List.append_nil]
    exact .of_lexeme h
  have hm := Munches.token .nil hl (.done .nil)
  rwa [List.nil_append, List.append_nil] at hm

theorem munches_cons (h : t.IsLexeme) (hm : Munches cs ts) :
    Munches (t.text.toList ++ ' ' :: cs) (t :: ts) := by
  have hl : Longest t (t.text.toList ++ ' ' :: cs) := (Longest.of_lexeme h).before_blank (by decide)
  exact .token .nil hl (.blank (by decide) hm)

theorem munches_intercalate (h : ∀ t ∈ ts, t.IsLexeme) :
    Munches ([' '].intercalate (ts.map (·.text.toList))) ts := by
  induction ts with
  | nil => exact .done .nil
  | cons t ts ih =>
    have ht := h t List.mem_cons_self
    have hts := ih fun u hu => h u (List.mem_cons_of_mem t hu)
    cases ts with
    | nil => simpa using munches_singleton ht
    | cons u us =>
      rw [List.map_cons, List.map_cons, List.intercalate_cons_cons, List.append_assoc]
      exact munches_cons ht hts

end Lexer

end ImpLang
