import ImpLang.Proofs.Token.MaximalMunch

namespace ImpLang

theorem Position.after_eq (text : List Char) :
    Position.after (fun _ => 1) text =
      ⟨text.count '\n' + 1, (text.rtakeWhile (· ≠ '\n')).length + 1⟩ := by
  induction text using List.reverseRecOn with
  | nil => rfl
  | append_singleton text c ih =>
    rw [after_append_singleton, ih, advance, List.count_append]
    by_cases hc : c = '\n'
    · subst hc
      simp
    · simp [hc]

namespace Lexer

/-- Nothing begins with the character if `rest` stands behind it: half of a symbol, the mark of a
comment whose line ends with a lone carriage return, or a character that the language has not. -/
def Illegal (c : Char) (rest : List Char) : Prop :=
  (c = ':' ∨ c = '!') ∧ rest.head? ≠ some '=' ∨
    c = '#' ∧ (∃ line more, rest = line ++ '\r' :: more ∧ '\n' ∉ line ∧ more.head? ≠ some '\n') ∨
    isBlank c = false ∧ c.isDigit = false ∧ c.isAlpha = false ∧ c ∉ "#:!();<>=+-*/".toList

variable {c : Char} {cs rest u v : List Char} {t : Token} {ts : List Token}

theorem trivia?_cons_eq_none_iff :
    trivia? (c :: cs) = none ↔ isBlank c = false ∧ (c = '#' → lineEnd? cs = none) := by
  rw [trivia?]
  cases hb : isBlank c with
  | true => simp
  | false => by_cases hc : c = '#' <;> simp [hc]

theorem lineEnd?_cons (hc : isLineEnd c = false) : lineEnd? (c :: cs) = lineEnd? cs := by
  simp [lineEnd?, hc]

theorem lineEnd?_carriageReturn :
    lineEnd? ('\r' :: cs) = if cs.head? = some '\n' then some ('\r' :: cs) else none := by
  simp [lineEnd?, isLineEnd]

theorem lineEnd?_eq_none_iff :
    lineEnd? cs = none ↔
      ∃ line more, cs = line ++ '\r' :: more ∧ '\n' ∉ line ∧ more.head? ≠ some '\n' := by
  constructor
  · intro h
    have hcs : cs.takeWhile (!isLineEnd ·) ++ cs.dropWhile (!isLineEnd ·) = cs :=
      List.takeWhile_append_dropWhile
    have hline : '\n' ∉ cs.takeWhile (!isLineEnd ·) := by
      intro hmem
      have := takeWhile_all _ _ _ hmem
      cases this
    unfold lineEnd? at h
    split at h
    · rename_i more hmore
      split at h
      · cases h
      · rename_i hhead
        exact ⟨_, more, by rw [← hmore, hcs], hline, hhead⟩
    · cases h
  · rintro ⟨line, more, rfl, hline, hmore⟩
    induction line with
    | nil => rw [List.nil_append, lineEnd?_carriageReturn, if_neg hmore]
    | cons d line ih =>
      simp only [List.mem_cons, not_or] at hline
      obtain ⟨hd, hline⟩ := hline
      by_cases hr : d = '\r'
      · subst hr
        rw [List.cons_append, lineEnd?_carriageReturn, if_neg]
        cases line with
        | nil => simp
        | cons e line => simpa using fun he => hline (by simp [he])
      · have hend : isLineEnd d = false := by simp [isLineEnd, hr, Ne.symm hd]
        rw [List.cons_append, lineEnd?_cons hend, ih hline]

theorem symbol?_cons_eq_none_iff :
    symbol? (c :: cs) = none ↔
      c ∉ "();<>=+-*/".toList ∧ (c = ':' ∨ c = '!' → cs.head? ≠ some '=') := by
  have hequal : strip? ['='] cs = none ↔ cs.head? ≠ some '=' := by
    cases cs <;> simp [strip?, eq_comm]
  rw [symbol?, List.findSome?_eq_none_iff]
  simp only [symbols, List.mem_cons, List.not_mem_nil, or_false, Option.map_eq_none_iff,
    forall_eq_or_imp, forall_eq, String.reduceToList, strip?, ite_eq_right_iff, hequal,
    reduceCtorEq, imp_false, not_or]
  grind

theorem lexeme?_cons_eq_none_iff :
    lexeme? (c :: cs) = none ↔ trivia? (c :: cs) = none ∧ c.isDigit = false ∧ c.isAlpha = false ∧
      symbol? (c :: cs) = none := by
  have htoken : lexeme? (c :: cs) = none ↔ trivia? (c :: cs) = none ∧ token? (c :: cs) = none := by
    rw [lexeme?]
    cases trivia? (c :: cs) <;> simp
  rw [htoken]
  cases hd : c.isDigit with
  | true => simp [token?_digit hd]
  | false =>
    cases ha : c.isAlpha with
    | true => simp [token?_alpha ha]
    | false => simp [token?_symbol hd ha]

/-- Scanning gets stuck exactly in front of an illegal character. -/
theorem lexeme?_eq_none_iff : lexeme? (c :: cs) = none ↔ Illegal c cs := by
  rw [lexeme?_cons_eq_none_iff, trivia?_cons_eq_none_iff, lineEnd?_eq_none_iff,
    symbol?_cons_eq_none_iff]
  constructor
  · rintro ⟨⟨hblank, hhash⟩, hd, ha, hsingle, hpair⟩
    by_cases hc : c = ':' ∨ c = '!'
    · exact .inl ⟨hc, hpair hc⟩
    · by_cases hh : c = '#'
      · exact .inr (.inl ⟨hh, hhash hh⟩)
      · refine .inr (.inr ⟨hblank, hd, ha, ?_⟩)
        simp_all
  · rintro (⟨rfl | rfl, heq⟩ | ⟨rfl, hline⟩ | ⟨hblank, hd, ha, hc⟩)
    · exact ⟨⟨by decide, by simp⟩, by decide, by decide, by decide, fun _ => heq⟩
    · exact ⟨⟨by decide, by simp⟩, by decide, by decide, by decide, fun _ => heq⟩
    · exact ⟨⟨by decide, fun _ => hline⟩, by decide, by decide, by decide, by simp⟩
    · refine ⟨⟨hblank, ?_⟩, hd, ha, ?_, ?_⟩ <;> simp_all

theorem not_blank_of_illegal (h : Illegal c v) : isBlank c = false := by
  rw [← lexeme?_eq_none_iff, lexeme?_cons_eq_none_iff, trivia?_cons_eq_none_iff] at h
  exact h.1.1

theorem LineEnds.of_append (h : LineEnds (u ++ c :: v)) (hc : isBlank c = false) :
    LineEnds u := by
  cases u with
  | nil => cases h <;> cases hc
  | cons a u =>
    rw [List.cons_append] at h
    generalize hw : u ++ c :: v = w at h
    cases h with
    | lineFeed => exact .lineFeed
    | carriageReturn =>
      cases u with
      | nil =>
        cases hw
        cases hc
      | cons b u =>
        cases hw
        exact .carriageReturn

theorem Longest.of_append (h : Longest t (t.text.toList ++ (u ++ v))) :
    Longest t (t.text.toList ++ u) := by
  refine ⟨h.1, fun tag text hpre htext => h.2 tag text ?_ htext⟩
  rw [← List.append_assoc]
  exact hpre.trans (List.prefix_append _ v)

theorem Gap.of_append (h : Gap cs (u ++ c :: v)) (hc : isBlank c = false) : Gap cs u := by
  generalize hw : u ++ c :: v = w at h
  induction h with
  | nil => exact .nil
  | blank hd _ ih => exact .blank hd (ih hw)
  | comment hline hend _ ih =>
    subst hw
    rw [← List.append_assoc] at hend
    exact .comment hline (hend.of_append hc) (ih rfl)

theorem eq_error_of_map_eq_error {stuck : List Char} {x : Except (List Char) (List Token)}
    {f : List Token → List Token} (h : x.map f = .error stuck) : x = .error stuck := by
  cases x with
  | ok ts => cases h
  | error rest => exact h

/-- Where scanning gets stuck stands an illegal character, and what is before it scans alone. -/
theorem exists_stuck {stuck : List Char} (h : scan cs = .error stuck) :
    ∃ u c v ts, cs = u ++ c :: v ∧ stuck = c :: v ∧ Munches u ts ∧ Illegal c v := by
  fun_induction scan cs with
  | case1 => cases h
  | case2 c cs hstuck =>
    cases h
    exact ⟨[], c, cs, [], rfl, rfl, .done .nil, lexeme?_eq_none_iff.1 hstuck⟩
  | case3 d ds t rest hlexeme ih =>
    obtain ⟨u, c, v, ts, rfl, rfl, hu, hc⟩ := ih (eq_error_of_map_eq_error h)
    obtain ⟨rfl, gap, hcs, hgap⟩ | ⟨t, rfl, hcs, hlongest⟩ := lexeme?_cases hlexeme
    · have hm := (hgap.of_append (not_blank_of_illegal hc)).munches hu
      exact ⟨gap ++ u, c, v, ts, by rw [hcs, List.append_assoc], rfl, hm, hc⟩
    · rw [hcs] at hlongest
      have hm := Munches.token .nil hlongest.of_append hu
      rw [List.nil_append] at hm
      exact ⟨_, c, v, _, by rw [hcs, List.append_assoc], rfl, hm, hc⟩

end Lexer

/-- A source that is not split into tokens has an illegal character at the reported place, and
what stands before it is split into tokens. -/
theorem exists_illegal_of_tokenize (source : String) (e : LexError)
    (h : tokenize source = .error e) :
    ∃ u v, source.toList = u ++ e.character :: v ∧
      e.position.line = u.count '\n' + 1 ∧
      e.position.column = (u.rtakeWhile (· ≠ '\n')).length + 1 ∧
      (∃ ts, tokenize (String.ofList u) = .ok ts) ∧
      Lexer.scan source.toList = .error (e.character :: v) ∧ Lexer.Illegal e.character v := by
  rw [tokenize] at h
  cases hs : Lexer.scan source.toList with
  | ok ts =>
    rw [hs] at h
    cases h
  | error stuck =>
    rw [hs] at h
    obtain rfl := Except.error.inj h
    obtain ⟨u, c, v, ts, hsource, rfl, hu, hc⟩ := Lexer.exists_stuck hs
    have hplace : (source.toList.take (source.toList.length - (c :: v).length)) = u := by
      rw [hsource, List.length_append, Nat.add_sub_cancel, List.take_left]
    have hposition : (LexError.ofRest source.toList (c :: v)).position =
        ⟨u.count '\n' + 1, (u.rtakeWhile (· ≠ '\n')).length + 1⟩ := by
      rw [LexError.ofRest, Position.ofRest, hplace, Position.after_eq]
    refine ⟨u, v, hsource, ?_, ?_, ⟨ts, ?_⟩, rfl, hc⟩
    · rw [hposition]
    · rw [hposition]
    · rwa [tokenize_eq_ok, String.toList_ofList]

/-- The illegal character stands on the second line, behind a comment with another such one. -/
theorem exists_illegal_of_tokenize_second_line :
    tokenize "n := 5; # n ≥ 5\r\nwhile n ≠ 0" = .error ⟨'≠', ⟨2, 9⟩⟩ ∧
    ∃ u v, "n := 5; # n ≥ 5\r\nwhile n ≠ 0".toList = u ++ '≠' :: v ∧
      2 = u.count '\n' + 1 ∧ 9 = (u.rtakeWhile (· ≠ '\n')).length + 1 ∧
      (∃ ts, tokenize (String.ofList u) = .ok ts) ∧
      Lexer.scan "n := 5; # n ≥ 5\r\nwhile n ≠ 0".toList = .error ('≠' :: v) ∧
      Lexer.Illegal '≠' v := by
  have h : tokenize "n := 5; # n ≥ 5\r\nwhile n ≠ 0" = .error ⟨'≠', ⟨2, 9⟩⟩ := by decide +kernel
  exact ⟨h, exists_illegal_of_tokenize _ _ h⟩

end ImpLang
