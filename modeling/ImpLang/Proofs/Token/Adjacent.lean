import ImpLang.Proofs.Token.Spacing

namespace ImpLang

namespace Token

abbrev IsWord (t : Token) : Prop := t.tag = .id ∨ t.tag = .reserved ∧ t.text ∈ Lexer.keywords

/-- With nothing between the two tokens, the second one or a part of it goes into the first. -/
def RunsInto (t u : Token) : Prop :=
  t.IsWord ∧ (u.IsWord ∨ u.tag = .int) ∨ t.tag = .int ∧ u.tag = .int ∨
    t ∈ [reserved "<", reserved ">", reserved "="] ∧ u ∈ [reserved "=", reserved "=="]

instance (t u : Token) : Decidable (t.RunsInto u) := inferInstanceAs (Decidable (_ ∨ _ ∨ _))

def Takes (t : Token) (c : Char) : Prop :=
  t.IsWord ∧ Lexer.isWordChar c ∨ t.tag = .int ∧ c.isDigit ∨
    t ∈ [reserved "<", reserved ">", reserved "="] ∧ c = '='

end Token

namespace Lexer

/-- Blanks and comments in any number, each comment with the line feed that ends it. -/
inductive Separator : List Char → Prop where
  | nil : Separator []
  | blank {c cs} (hc : isBlank c) (more : Separator cs) : Separator (c :: cs)
  | comment {line cs} (hline : ∀ c ∈ line, isLineEnd c = false) (more : Separator cs) :
    Separator ('#' :: (line ++ '\n' :: cs))

variable {tag : Tag} {t u : Token} {c : Char} {cs ds rest : List Char} {ts : List Token}

theorem Separator.gap (h : Separator cs) : Gap cs rest := by
  induction h with
  | nil => exact .nil
  | blank hc _ ih => exact .blank hc ih
  | comment hline _ ih => exact .comment hline .lineFeed (.blank (by decide) ih)

theorem word_or_int_or_symbol (ht : t.IsLexeme) :
    t.IsWord ∨ t.tag = .int ∨ ∃ s ∈ symbols, t = .reserved s := by
  obtain ⟨text, tag⟩ := t
  cases tag with
  | reserved =>
    obtain hk | hs := ht
    · rw [String.ofList_toList] at hk
      exact .inl (.inr ⟨rfl, hk⟩)
    · rw [String.ofList_toList] at hs
      exact .inr (.inr ⟨text, hs, rfl⟩)
  | int => exact .inr (.inl rfl)
  | id => exact .inl (.inl rfl)

theorem exists_eq_cons_of_isWord (ht : t.IsLexeme) (hw : t.IsWord) :
    ∃ c cs, t.text.toList = c :: cs ∧ c.isAlpha ∧ ∀ d ∈ cs, isWordChar d := by
  obtain ⟨text, tag⟩ := t
  obtain rfl | ⟨rfl, hk⟩ := hw
  · exact ht.1
  · exact keyword_word text hk

theorem exists_eq_cons_of_int (ht : t.IsLexeme) (hint : t.tag = .int) :
    ∃ c cs, t.text.toList = c :: cs ∧ c.isDigit ∧ ∀ d ∈ cs, d.isDigit := by
  obtain ⟨text, tag⟩ := t
  obtain rfl : tag = .int := hint
  obtain ⟨c, cs, htext⟩ := List.exists_cons_of_ne_nil ht.1
  exact ⟨c, cs, htext, List.forall_mem_cons.1 (htext ▸ ht.2)⟩

theorem symbols_extend : ∀ s ∈ symbols, ∀ s' ∈ symbols, s.toList <+: s'.toList →
    s' = s ∨ Token.reserved s ∈ [Token.reserved "<", .reserved ">", .reserved "="] ∧
      s'.toList = s.toList ++ ['='] := by
  decide

theorem exists_lexeme_of_takes (ht : t.IsLexeme) (h : t.Takes c) :
    ∃ tag, Lexeme tag (t.text.toList ++ [c]) := by
  obtain ⟨hw, hc⟩ | ⟨hint, hc⟩ | ⟨hs, rfl⟩ := h
  · obtain ⟨d, ds, htext, hd, hds⟩ := exists_eq_cons_of_isWord ht hw
    rw [htext]
    exact ⟨_, (lexeme_alpha_iff hd).2 ⟨rfl, List.forall_mem_append.2 ⟨hds, by simpa⟩⟩⟩
  · obtain ⟨d, ds, htext, hd, hds⟩ := exists_eq_cons_of_int ht hint
    rw [htext]
    exact ⟨_, (lexeme_digit_iff hd).2 ⟨rfl, List.forall_mem_append.2 ⟨hds, by simpa⟩⟩⟩
  · refine ⟨.reserved, .inr ?_⟩
    simp only [List.mem_cons, List.not_mem_nil, or_false] at hs
    obtain rfl | rfl | rfl := hs <;> decide

theorem takes_of_lexeme (ht : t.IsLexeme) (h : Lexeme tag (t.text.toList ++ c :: ds)) :
    t.Takes c := by
  obtain hw | hint | ⟨s, hs, rfl⟩ := word_or_int_or_symbol ht
  · obtain ⟨d, es, htext, hd, -⟩ := exists_eq_cons_of_isWord ht hw
    rw [htext] at h
    exact .inl ⟨hw, ((lexeme_alpha_iff hd).1 h).2 c (by simp)⟩
  · obtain ⟨d, es, htext, hd, -⟩ := exists_eq_cons_of_int ht hint
    rw [htext] at h
    exact .inr (.inl ⟨hint, ((lexeme_digit_iff hd).1 h).2 c (by simp)⟩)
  · obtain ⟨d, es, htext, hd, ha, -⟩ := symbol_head s hs
    have hmem : String.ofList (s.toList ++ c :: ds) ∈ symbols := by
      rw [show (Token.reserved s).text.toList = _ from htext] at h
      rw [htext]
      exact ((lexeme_symbol_iff hd ha).1 h).2
    obtain heq | ⟨hsign, heq⟩ := symbols_extend s hs _ hmem (by simp)
    · simpa using congrArg String.toList heq
    · simp only [String.toList_ofList, List.append_cancel_left_eq, List.cons.injEq] at heq
      exact .inr (.inr ⟨hsign, heq.1⟩)

/-- A token is the longest one at its place exactly if what follows it does not go into it. -/
theorem longest_iff (ht : t.IsLexeme) :
    Longest t (t.text.toList ++ rest) ↔ ∀ c ∈ rest.head?, ¬ t.Takes c := by
  constructor
  · intro h c hc htakes
    obtain ⟨cs, rfl⟩ := List.head?_eq_some_iff.1 hc
    obtain ⟨tag, hlexeme⟩ := exists_lexeme_of_takes ht htakes
    have hle := h.2 tag _ (by simp) hlexeme
    simp at hle
  · intro h
    refine ⟨ht, fun tag text hpre htext => ?_⟩
    obtain hle | ⟨more, rfl⟩ := List.prefix_or_prefix_of_prefix hpre (List.prefix_append _ rest)
    · exact hle.length_le
    · rw [List.prefix_append_right_inj] at hpre
      cases more with
      | nil => simp
      | cons c ds =>
        obtain ⟨cs, rfl⟩ := hpre
        exact absurd (takes_of_lexeme ht htext) (h c rfl)

theorem lexeme_of_eq_cons (hu : u.IsLexeme) (htext : u.text.toList = c :: cs) :
    Lexeme u.tag (c :: cs) := by
  rw [← htext]
  exact hu

theorem isDigit_head_iff (hu : u.IsLexeme) (htext : u.text.toList = c :: cs) :
    c.isDigit ↔ u.tag = .int := by
  constructor
  · intro hc
    exact ((lexeme_digit_iff hc).1 (lexeme_of_eq_cons hu htext)).1
  · intro hint
    obtain ⟨d, ds, htext', hd, -⟩ := exists_eq_cons_of_int hu hint
    cases htext.symm.trans htext'
    exact hd

theorem isAlpha_head_iff (hu : u.IsLexeme) (htext : u.text.toList = c :: cs) :
    c.isAlpha ↔ u.IsWord := by
  constructor
  · intro hc
    have htag := ((lexeme_alpha_iff hc).1 (lexeme_of_eq_cons hu htext)).1
    rw [← htext, String.ofList_toList, wordToken_tag] at htag
    split at htag
    · exact .inr ⟨htag, ‹_›⟩
    · exact .inl htag
  · intro hw
    obtain ⟨d, ds, htext', hd, -⟩ := exists_eq_cons_of_isWord hu hw
    cases htext.symm.trans htext'
    exact hd

theorem equals_head_iff (hu : u.IsLexeme) (htext : u.text.toList = c :: cs) :
    c = '=' ↔ u ∈ [Token.reserved "=", .reserved "=="] := by
  constructor
  · rintro rfl
    have hequals : ∀ s ∈ symbols, s.toList.head? = some '=' →
        Token.reserved s ∈ [Token.reserved "=", .reserved "=="] := by decide
    have hlexeme := lexeme_of_eq_cons hu htext
    obtain ⟨htag, hs⟩ := (lexeme_symbol_iff (by decide) (by decide)).1 hlexeme
    rw [← htext, String.ofList_toList] at hs
    obtain ⟨text, tag⟩ := u
    obtain rfl : tag = .reserved := htag
    exact hequals text hs (by rw [show text.toList = _ from htext, List.head?_cons])
  · intro hmem
    simp only [List.mem_cons, List.not_mem_nil, or_false] at hmem
    obtain rfl | rfl := hmem <;> cases htext <;> rfl

theorem isWordChar_head_iff (hu : u.IsLexeme) (htext : u.text.toList = c :: cs) :
    isWordChar c ↔ u.IsWord ∨ u.tag = .int := by
  have hunderscore : c ≠ '_' := by
    rintro rfl
    have hnone : ∀ s ∈ symbols, s.toList.head? ≠ some '_' := by decide
    have hlexeme := lexeme_of_eq_cons hu htext
    obtain ⟨-, hs⟩ := (lexeme_symbol_iff (by decide) (by decide)).1 hlexeme
    exact hnone _ hs (by simp)
  rw [← isAlpha_head_iff hu htext, ← isDigit_head_iff hu htext]
  simp [isWordChar, Char.isAlphanum, hunderscore]

theorem takes_head_iff (hu : u.IsLexeme) (htext : u.text.toList = c :: cs) :
    t.Takes c ↔ t.RunsInto u := by
  rw [Token.Takes, Token.RunsInto, isWordChar_head_iff hu htext, isDigit_head_iff hu htext,
    equals_head_iff hu htext]

theorem Separator.not_takes (h : Separator (c :: cs)) : ¬ t.Takes c := by
  have hc : isWordChar c = false ∧ c.isDigit = false ∧ c ≠ '=' := by
    cases h with
    | blank hc =>
      simp only [isBlank, Bool.or_eq_true, beq_iff_eq] at hc
      obtain ((rfl | rfl) | rfl) | rfl := hc <;> decide
    | comment => decide
  simp [Token.Takes, hc]

theorem munches_cons_iff (ht : t.IsLexeme) (hgap : Gap cs (t.text.toList ++ rest)) :
    Munches (cs ++ (t.text.toList ++ rest)) (t :: ts) ↔
      Longest t (t.text.toList ++ rest) ∧ Munches rest ts := by
  constructor
  · intro h
    obtain ⟨u, more, hu⟩ := exists_token? ⟨rest, rfl⟩ ht
    have htrivia := trivia?_eq_none ⟨rest, rfl⟩ ht
    have hscan := scan_eq_ok_iff.2 h
    rw [hgap.scan_append, scan_of_token? htrivia hu] at hscan
    cases hmore : scan more with
    | error stuck =>
      rw [hmore] at hscan
      cases hscan
    | ok us =>
      rw [hmore] at hscan
      cases hscan
      obtain ⟨hcs, hlongest⟩ := token?_eq_some_iff.1 hu
      obtain rfl : rest = more := List.append_cancel_left hcs
      exact ⟨hlongest, scan_eq_ok_iff.1 hmore⟩
  · rintro ⟨hlongest, hm⟩
    exact .token hgap hlongest hm

theorem exists_eq_cons_of_isLexeme (ht : t.IsLexeme) : ∃ c cs, t.text.toList = c :: cs := by
  refine List.exists_cons_of_ne_nil fun hnil => ?_
  rw [Token.IsLexeme, hnil] at ht
  exact not_lexeme_nil ht

/-- Tokens, each with the text behind it. -/
def written (row : List (Token × String)) : List Char :=
  row.flatMap fun p => p.1.text.toList ++ p.2.toList

variable {gap : String} {row : List (Token × String)}

theorem longest_written_iff (ht : t.IsLexeme) (hgap : Separator gap.toList)
    (hrow : ∀ p ∈ row, p.1.IsLexeme) :
    Longest t (t.text.toList ++ (gap.toList ++ written row)) ↔
      ∀ p ∈ row.head?, gap = "" → ¬ t.RunsInto p.1 := by
  rw [longest_iff ht, ← String.toList_eq_nil_iff]
  cases hcs : gap.toList with
  | cons c cs =>
    rw [hcs] at hgap
    simpa using hgap.not_takes
  | nil =>
    cases row with
    | nil => simp [written]
    | cons p row =>
      have hp := hrow p List.mem_cons_self
      obtain ⟨c, ds, htext⟩ := exists_eq_cons_of_isLexeme hp
      have hhead : ([] ++ written (p :: row)).head? = some c := by
        simp [written, htext]
      rw [hhead]
      simpa using not_congr (takes_head_iff hp htext)

theorem munches_written_iff (hcs : Separator cs)
    (hrow : ∀ p ∈ row, p.1.IsLexeme ∧ Separator p.2.toList) :
    Munches (cs ++ written row) (row.map Prod.fst) ↔
      row.IsChain fun p q => p.2 = "" → ¬ p.1.RunsInto q.1 := by
  induction row generalizing cs with
  | nil =>
    have hm : Munches (cs ++ written []) [] := .done (by simpa [written] using hcs.gap)
    simpa using hm
  | cons p row ih =>
    obtain ⟨⟨ht, hgap⟩, hrow⟩ := List.forall_mem_cons.1 hrow
    have hwritten : written (p :: row) = p.1.text.toList ++ (p.2.toList ++ written row) :=
      List.append_assoc ..
    rw [hwritten, List.map_cons, munches_cons_iff ht hcs.gap, ih hgap hrow,
      longest_written_iff ht hgap fun q hq => (hrow q hq).1, List.isChain_cons]

end Lexer

/-- Tokens that are written out with separators between them are read back exactly if none of them
stands directly in front of one that it runs into. -/
theorem tokenize_written_iff (lead : String) (row : List (Token × String))
    (hlead : Lexer.Separator lead.toList)
    (hrow : ∀ p ∈ row, p.1.IsLexeme ∧ Lexer.Separator p.2.toList) :
    tokenize (lead ++ String.join (row.map fun p => p.1.text ++ p.2)) = .ok (row.map Prod.fst) ↔
      row.IsChain fun p q => p.2 = "" → ¬ p.1.RunsInto q.1 := by
  have htext : (lead ++ String.join (row.map fun p => p.1.text ++ p.2)).toList =
      lead.toList ++ Lexer.written row := by
    simp [Lexer.written, List.flatMap_map]
  rw [tokenize_eq_ok, htext, Lexer.munches_written_iff hlead hrow]

/-- A digit does not run into a letter, nor `==` into `=`; but `<` runs into `==` where the comment
between them is left out. -/
theorem tokenize_written_signs :
    tokenize "1x <#\n===" =
      .ok [.int "1", .id "x", .reserved "<", .reserved "==", .reserved "="] ∧
    tokenize "1x <===" ≠
      .ok [.int "1", .id "x", .reserved "<", .reserved "==", .reserved "="] := by
  have hcomment : Lexer.Separator ('#' :: ([] ++ '\n' :: [])) := .comment (by simp) .nil
  have hsep : ∀ gap ∈ ["", " ", "#\n"], Lexer.Separator gap.toList := by
    simp only [List.forall_mem_cons, String.reduceToList]
    exact ⟨.nil, .blank (by decide) .nil, hcomment, by simp⟩
  have hlexeme : ∀ t ∈ [Token.int "1", .id "x", .reserved "<", .reserved "==", .reserved "="],
      t.IsLexeme := by
    simp only [List.forall_mem_cons]
    refine ⟨⟨by decide, by simp [Token.int]⟩, ⟨⟨'x', [], rfl, by decide, by simp⟩, by decide⟩, ?_⟩
    exact ⟨.inr (by decide), .inr (by decide), .inr (by decide), by simp⟩
  constructor
  · exact (tokenize_written_iff "" [(.int "1", ""), (.id "x", " "), (.reserved "<", "#\n"),
      (.reserved "==", ""), (.reserved "=", "")] (hsep _ (by decide))
        (by grind)).2 (by decide)
  · exact mt (tokenize_written_iff "" [(.int "1", ""), (.id "x", " "), (.reserved "<", ""),
      (.reserved "==", ""), (.reserved "=", "")] (hsep _ (by decide))
        (by grind)).1 (by decide)

end ImpLang
