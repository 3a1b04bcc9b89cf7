import ImpLang.Proofs.Token.Lexeme

namespace ImpLang

namespace Lexer

/-- A line ends here: with the text, or at a line feed, also one behind a carriage return. -/
inductive LineEnds : List Char → Prop where
  | ofText : LineEnds []
  | lineFeed {rest} : LineEnds ('\n' :: rest)
  | carriageReturn {rest} : LineEnds ('\r' :: '\n' :: rest)

/-- Blanks and comments in any number, in front of the rest of the source. A comment goes to the
end of its line. -/
inductive Gap : (gap rest : List Char) → Prop where
  | nil {rest} : Gap [] rest
  | blank {c gap rest} (hc : isBlank c) (more : Gap gap rest) : Gap (c :: gap) rest
  | comment {line gap rest} (hline : ∀ c ∈ line, isLineEnd c = false)
      (hend : LineEnds (gap ++ rest)) (more : Gap gap rest) : Gap ('#' :: (line ++ gap)) rest

/-- Gaps and tokens in turn, each token the longest one at its place. -/
inductive Munches : List Char → List Token → Prop where
  | done {gap} (hgap : Gap gap []) : Munches gap []
  | token {gap t rest ts} (hgap : Gap gap (t.text.toList ++ rest))
      (hlongest : Longest t (t.text.toList ++ rest)) (more : Munches rest ts) :
      Munches (gap ++ (t.text.toList ++ rest)) (t :: ts)

variable {cs rest : List Char} {ts : List Token}

theorem Munches.blank {c : Char} (hc : isBlank c) (h : Munches cs ts) : Munches (c :: cs) ts := by
  cases h with
  | done hgap => exact .done (.blank hc hgap)
  | token hgap hlongest more => exact .token (.blank hc hgap) hlongest more

theorem Munches.comment {line : List Char} (hline : ∀ c ∈ line, isLineEnd c = false)
    (hend : LineEnds cs) (h : Munches cs ts) : Munches ('#' :: (line ++ cs)) ts := by
  cases h with
  | done hgap =>
    have hg := Gap.comment hline (by rwa [List.append_nil]) hgap
    exact .done hg
  | token hgap hlongest more =>
    have hg := Munches.token (.comment hline hend hgap) hlongest more
    rwa [List.cons_append, List.append_assoc] at hg

theorem Gap.munches {gap : List Char} (h : Gap gap cs) (hm : Munches cs ts) :
    Munches (gap ++ cs) ts := by
  induction h with
  | nil => exact hm
  | blank hc _ ih => exact .blank hc (ih hm)
  | comment hline hend _ ih =>
    rw [List.cons_append, List.append_assoc]
    exact .comment hline hend (ih hm)

theorem gap_of_blanks {gap : List Char} (hgap : ∀ c ∈ gap, isBlank c) : Gap gap rest := by
  induction gap with
  | nil => exact .nil
  | cons c gap ih =>
    obtain ⟨hc, hgap⟩ := List.forall_mem_cons.1 hgap
    exact .blank hc (ih hgap)

theorem lineEnd?_eq_some_iff :
    lineEnd? cs = some rest ↔
      ∃ line, cs = line ++ rest ∧ (∀ c ∈ line, isLineEnd c = false) ∧ LineEnds rest := by
  constructor
  · intro h
    have hcs : cs.takeWhile (!isLineEnd ·) ++ cs.dropWhile (!isLineEnd ·) = cs :=
      List.takeWhile_append_dropWhile
    have hline : ∀ c ∈ cs.takeWhile (!isLineEnd ·), isLineEnd c = false :=
      fun c hc => by simpa using takeWhile_all _ _ c hc
    have hhead := List.head?_dropWhile_not (!isLineEnd ·) cs
    unfold lineEnd? at h
    generalize cs.dropWhile (!isLineEnd ·) = tail at h hcs hhead
    have hend : tail = rest ∧ LineEnds rest := by
      obtain _ | ⟨c, tail⟩ := tail
      · cases h
        exact ⟨rfl, .ofText⟩
      · have hc : c = '\r' ∨ c = '\n' := by
          simpa [isLineEnd, Decidable.or_iff_not_imp_left] using hhead
        obtain rfl | rfl := hc
        · obtain _ | ⟨d, tail⟩ := tail
          · cases h
          · by_cases hd : d = '\n'
            · subst hd
              cases h
              exact ⟨rfl, .carriageReturn⟩
            · simp [hd] at h
        · cases h
          exact ⟨rfl, .lineFeed⟩
    exact ⟨_, hend.1 ▸ hcs.symm, hline, hend.2⟩
  · rintro ⟨line, rfl, hline, hend⟩
    have hd : (line ++ rest).dropWhile (!isLineEnd ·) = rest.dropWhile (!isLineEnd ·) :=
      List.dropWhile_append_of_pos fun c hc => by simp [hline c hc]
    unfold lineEnd?
    rw [hd]
    cases hend <;> rfl

theorem exists_gap_of_trivia? (h : trivia? cs = some rest) :
    ∃ gap, cs = gap ++ rest ∧ Gap gap rest := by
  cases cs with
  | nil => cases h
  | cons c cs =>
    rw [trivia?] at h
    split at h
    · rename_i hc
      cases h
      refine ⟨c :: cs.takeWhile isBlank, ?_, .blank hc (gap_of_blanks (takeWhile_all isBlank cs))⟩
      rw [List.cons_append, List.takeWhile_append_dropWhile]
    · split at h
      · rename_i hc
        subst hc
        obtain ⟨line, rfl, hline, hend⟩ := lineEnd?_eq_some_iff.1 h
        have hgap := Gap.comment hline (by rwa [List.nil_append]) .nil
        exact ⟨_, by rw [List.append_nil, List.cons_append], hgap⟩
      · cases h

theorem lexeme?_cases {t : Option Token} (h : lexeme? cs = some (t, rest)) :
    (t = none ∧ ∃ gap, cs = gap ++ rest ∧ Gap gap rest) ∨
      ∃ u, t = some u ∧ cs = u.text.toList ++ rest ∧ Longest u cs := by
  unfold lexeme? at h
  split at h
  · rename_i htrivia
    cases h
    exact .inl ⟨rfl, exists_gap_of_trivia? htrivia⟩
  · obtain ⟨⟨u, more⟩, htoken, heq⟩ := Option.map_eq_some_iff.1 h
    cases heq
    exact .inr ⟨u, rfl, token?_eq_some_iff.1 htoken⟩

theorem scan_nil : scan [] = .ok [] := by
  rw [scan]

theorem scan_of_lexeme? {t : Option Token} (h : lexeme? cs = some (t, rest)) :
    scan cs = (scan rest).map (t.toList ++ ·) := by
  cases cs with
  | nil => cases h
  | cons c cs =>
    rw [scan]
    split <;> simp_all

theorem scan_of_trivia? (h : trivia? cs = some rest) : scan cs = scan rest := by
  rw [scan_of_lexeme? (t := none) (by rw [lexeme?, h])]
  cases scan rest <;> rfl

theorem scan_of_token? {t : Token} (htrivia : trivia? cs = none)
    (h : token? cs = some (t, rest)) : scan cs = (scan rest).map (t :: ·) :=
  scan_of_lexeme? (t := some t) (by rw [lexeme?, htrivia, h]; rfl)

theorem scan_of_stuck {c : Char} (h : lexeme? (c :: cs) = none) :
    scan (c :: cs) = .error (c :: cs) := by
  rw [scan]
  split <;> simp_all

theorem scan_blank {c : Char} (hc : isBlank c) : scan (c :: cs) = scan cs := by
  have hrun {d : Char} {ds : List Char} (hd : isBlank d) :
      scan (d :: ds) = scan (ds.dropWhile isBlank) :=
    scan_of_trivia? (by simp [trivia?, hd])
  rw [hrun hc]
  obtain _ | ⟨d, ds⟩ := cs
  · rfl
  · cases hd : isBlank d with
    | true => rw [hrun hd, List.dropWhile_cons_of_pos hd]
    | false => rw [List.dropWhile_cons_of_neg (by simp [hd])]

theorem scan_comment {line : List Char} (hline : ∀ c ∈ line, isLineEnd c = false)
    (hend : LineEnds cs) : scan ('#' :: (line ++ cs)) = scan cs := by
  refine scan_of_trivia? ?_
  have hl : lineEnd? (line ++ cs) = some cs := lineEnd?_eq_some_iff.2 ⟨line, rfl, hline, hend⟩
  simpa [trivia?, isBlank] using hl

theorem Gap.scan_append {gap : List Char} (h : Gap gap rest) : scan (gap ++ rest) = scan rest := by
  induction h with
  | nil => rfl
  | blank hc _ ih => exact (scan_blank hc).trans ih
  | comment hline hend _ ih =>
    rw [List.cons_append, List.append_assoc]
    exact (scan_comment hline hend).trans ih

theorem not_trivia_of_word {c : Char} (h : isWordChar c) : isBlank c = false ∧ c ≠ '#' := by
  have hb : isWordChar ' ' = false ∧ isWordChar '\t' = false ∧ isWordChar '\r' = false ∧
      isWordChar '\n' = false ∧ isWordChar '#' = false := by decide
  constructor
  · cases hc : isBlank c with
    | false => rfl
    | true =>
      simp only [isBlank, Bool.or_eq_true, beq_iff_eq] at hc
      rcases hc with ((rfl | rfl) | rfl) | rfl <;> simp_all
  · rintro rfl
    simp_all

theorem trivia?_eq_none {tag : Tag} {text : List Char} (hpre : text <+: cs)
    (h : Lexeme tag text) : trivia? cs = none := by
  cases text with
  | nil => exact absurd h not_lexeme_nil
  | cons c text =>
    obtain ⟨rest, rfl⟩ := hpre
    have hc : isBlank c = false ∧ c ≠ '#' := by
      cases hd : c.isDigit with
      | true => exact not_trivia_of_word (by simp [isWordChar, Char.isAlphanum, hd])
      | false =>
        cases ha : c.isAlpha with
        | true => exact not_trivia_of_word (by simp [isWordChar, Char.isAlphanum, ha])
        | false =>
          obtain ⟨-, hs⟩ := (lexeme_symbol_iff hd ha).1 h
          obtain ⟨d, ds, he, -, -, hb, hne⟩ := symbol_head _ hs
          rw [String.toList_ofList] at he
          cases he
          exact ⟨hb, hne⟩
    simp [trivia?, hc]

theorem scan_eq_ok_iff : scan cs = .ok ts ↔ Munches cs ts := by
  constructor
  · intro h
    fun_induction scan cs generalizing ts with
    | case1 =>
      cases h
      exact .done .nil
    | case2 => cases h
    | case3 c cs t rest hlexeme ih =>
      cases hrest : scan rest with
      | error stuck =>
        rw [hrest] at h
        cases h
      | ok us =>
        rw [hrest] at h
        cases h
        have hm := ih hrest
        obtain ⟨rfl, gap, hcs, hgap⟩ | ⟨u, rfl, hcs, hlongest⟩ := lexeme?_cases hlexeme
        · rw [hcs]
          exact hgap.munches hm
        · rw [hcs] at hlongest ⊢
          exact .token .nil hlongest hm
  · intro h
    induction h with
    | done hgap =>
      have hs := hgap.scan_append
      rw [List.append_nil] at hs
      exact hs.trans scan_nil
    | @token gap t rest ts hgap hlongest more ih =>
      have htrivia := trivia?_eq_none ⟨rest, rfl⟩ hlongest.1
      rw [hgap.scan_append, scan_of_token? htrivia (token?_eq_some_iff.2 ⟨rfl, hlongest⟩), ih]
      rfl

end Lexer

theorem tokenize_eq_ok {source : String} {ts : List Token} :
    tokenize source = .ok ts ↔ Lexer.Munches source.toList ts := by
  rw [← Lexer.scan_eq_ok_iff, tokenize]
  cases Lexer.scan source.toList <;> simp [Except.mapError]

/-- A source text is split into tokens exactly as its maximal munch says, so in one way only. -/
theorem tokenize_eq_ok_iff (source : String) :
    (∀ ts, tokenize source = .ok ts ↔ Lexer.Munches source.toList ts) ∧
      ∀ ts us, Lexer.Munches source.toList ts → Lexer.Munches source.toList us → ts = us := by
  refine ⟨fun ts => tokenize_eq_ok, fun ts us ht hu => ?_⟩
  rw [← tokenize_eq_ok] at ht hu
  exact Except.ok.inj (ht.symm.trans hu)

end ImpLang
