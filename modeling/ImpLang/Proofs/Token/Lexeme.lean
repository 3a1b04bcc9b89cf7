import Mathlib
import ImpLang.Token.Lexer

namespace ImpLang.Lexer

def Lexeme (tag : Tag) (text : List Char) : Prop :=
  match tag with
  | .reserved => String.ofList text ∈ keywords ∨ String.ofList text ∈ symbols
  | .int => text ≠ [] ∧ ∀ c ∈ text, c.isDigit
  | .id => (∃ c cs, text = c :: cs ∧ c.isAlpha ∧ ∀ d ∈ cs, isWordChar d) ∧
      String.ofList text ∉ keywords

/-- A token has a text of its class, and no text of any class that the source begins with is
longer. -/
def Longest (t : Token) (source : List Char) : Prop :=
  Lexeme t.tag t.text.toList ∧
    ∀ tag text, text <+: source → Lexeme tag text → text.length ≤ t.text.toList.length

theorem strip?_eq_some_iff {ws cs rest : List Char} :
    strip? ws cs = some rest ↔ cs = ws ++ rest := by
  fun_induction strip? ws cs with
  | case1 cs => simp
  | case2 w ws => simp
  | case3 w ws cs ih => simp [ih]
  | case4 w ws c cs h => simp [Ne.symm h]

theorem length_le_takeWhile {p : Char → Bool} {u cs : List Char} (h : u <+: cs)
    (hu : ∀ c ∈ u, p c) : u.length ≤ (cs.takeWhile p).length := by
  obtain ⟨v, rfl⟩ := h
  rw [List.takeWhile_append_of_pos hu, List.length_append]
  exact Nat.le_add_right _ _

theorem takeWhile_all (p : Char → Bool) (cs : List Char) : ∀ c ∈ cs.takeWhile p, p c := by
  intro c hc
  exact List.all_eq_true.1 List.all_takeWhile c hc

theorem symbol_head : ∀ s ∈ symbols, ∃ c cs, s.toList = c :: cs ∧
    c.isDigit = false ∧ c.isAlpha = false ∧ isBlank c = false ∧ c ≠ '#' := by
  have h : ∀ s ∈ symbols, s.toList.head?.any (fun c =>
      !c.isDigit && !c.isAlpha && !isBlank c && c != '#') = true := by decide
  intro s hs
  obtain ⟨c, hc, hp⟩ := (Option.any_eq_true _ _).1 (h s hs)
  obtain ⟨cs, hcs⟩ := List.head?_eq_some_iff.1 hc
  simp only [Bool.and_eq_true, Bool.not_eq_true', bne_iff_ne] at hp
  obtain ⟨⟨⟨hdigit, halpha⟩, hblank⟩, hhash⟩ := hp
  exact ⟨c, cs, hcs, hdigit, halpha, hblank, hhash⟩

theorem keyword_word : ∀ s ∈ keywords, ∃ c cs, s.toList = c :: cs ∧ c.isAlpha ∧
    ∀ d ∈ cs, isWordChar d := by
  have h : ∀ s ∈ keywords, s.toList.head?.any Char.isAlpha = true ∧
      s.toList.tail.all isWordChar = true := by decide
  intro s hs
  obtain ⟨hhead, htail⟩ := h s hs
  obtain ⟨c, hc, hp⟩ := (Option.any_eq_true _ _).1 hhead
  obtain ⟨cs, hcs⟩ := List.head?_eq_some_iff.1 hc
  rw [hcs, List.tail_cons] at htail
  exact ⟨c, cs, hcs, hp, List.all_eq_true.1 htail⟩

theorem isAlpha_of_isDigit {c : Char} (h : c.isDigit) : c.isAlpha = false := by
  simp only [Char.isDigit, Char.isAlpha, Char.isUpper, Char.isLower, Bool.and_eq_true,
    decide_eq_true_eq, Bool.or_eq_false_iff, Bool.and_eq_false_iff, decide_eq_false_iff_not] at *
  grind

@[simp] theorem wordToken_text (s : String) : (wordToken s).text = s := by
  unfold wordToken
  split <;> rfl

theorem wordToken_tag (s : String) :
    (wordToken s).tag = if s ∈ keywords then .reserved else .id := by
  unfold wordToken
  split <;> rfl

variable {tag : Tag} {c : Char} {cs rest : List Char}

theorem lexeme_digit_iff (hc : c.isDigit) :
    Lexeme tag (c :: cs) ↔ tag = .int ∧ ∀ d ∈ cs, d.isDigit := by
  have ha := isAlpha_of_isDigit hc
  cases tag with
  | reserved =>
    refine ⟨?_, fun h => by cases h.1⟩
    rintro (h | h)
    · obtain ⟨d, ds, hd, hda, -⟩ := keyword_word _ h
      rw [String.toList_ofList] at hd
      cases hd
      simp_all
    · obtain ⟨d, ds, hd, hdd, -⟩ := symbol_head _ h
      rw [String.toList_ofList] at hd
      cases hd
      simp_all
  | int => simp [Lexeme, hc]
  | id =>
    refine ⟨?_, fun h => by cases h.1⟩
    rintro ⟨⟨d, ds, hd, hda, -⟩, -⟩
    cases hd
    simp_all

theorem lexeme_alpha_iff (hc : c.isAlpha) :
    Lexeme tag (c :: cs) ↔
      tag = (wordToken (String.ofList (c :: cs))).tag ∧ ∀ d ∈ cs, isWordChar d := by
  rw [wordToken_tag]
  cases tag with
  | reserved =>
    constructor
    · rintro (h | h)
      · obtain ⟨d, ds, hd, -, hw⟩ := keyword_word _ h
        rw [String.toList_ofList] at hd
        cases hd
        exact ⟨(if_pos h).symm, hw⟩
      · obtain ⟨d, ds, hd, -, hda, -⟩ := symbol_head _ h
        rw [String.toList_ofList] at hd
        cases hd
        simp_all
    · rintro ⟨h, -⟩
      split at h
      · exact .inl ‹_›
      · cases h
  | int =>
    constructor
    · rintro ⟨-, h⟩
      have := isAlpha_of_isDigit (h c (by simp))
      simp_all
    · rintro ⟨h, -⟩
      split at h <;> cases h
  | id =>
    constructor
    · rintro ⟨⟨d, ds, hd, -, hw⟩, hk⟩
      cases hd
      exact ⟨(if_neg hk).symm, hw⟩
    · rintro ⟨h, hw⟩
      refine ⟨⟨c, cs, rfl, hc, hw⟩, fun hk => ?_⟩
      rw [if_pos hk] at h
      cases h

theorem lexeme_symbol_iff (hd : c.isDigit = false) (ha : c.isAlpha = false) :
    Lexeme tag (c :: cs) ↔ tag = .reserved ∧ String.ofList (c :: cs) ∈ symbols := by
  cases tag with
  | reserved =>
    constructor
    · rintro (h | h)
      · obtain ⟨d, ds, he, hda, -⟩ := keyword_word _ h
        rw [String.toList_ofList] at he
        cases he
        simp_all
      · exact ⟨rfl, h⟩
    · exact fun h => .inr h.2
  | int =>
    refine ⟨?_, fun h => by cases h.1⟩
    rintro ⟨-, h⟩
    have := h c (by simp)
    simp_all
  | id =>
    refine ⟨?_, fun h => by cases h.1⟩
    rintro ⟨⟨d, ds, he, hda, -⟩, -⟩
    cases he
    simp_all

theorem not_lexeme_nil : ¬ Lexeme tag [] := by
  cases tag with
  | reserved =>
    have h : ¬ (String.ofList [] ∈ keywords ∨ String.ofList [] ∈ symbols) := by decide
    exact h
  | int => exact fun h => h.1 rfl
  | id => exact fun ⟨⟨_, _, h, _⟩, _⟩ => by cases h

theorem Lexeme.tag_unique {tag' : Tag} (h : Lexeme tag cs) (h' : Lexeme tag' cs) : tag = tag' := by
  cases cs with
  | nil => exact absurd h not_lexeme_nil
  | cons c cs =>
    cases hd : c.isDigit with
    | true =>
      rw [lexeme_digit_iff hd] at h h'
      rw [h.1, h'.1]
    | false =>
      cases ha : c.isAlpha with
      | true =>
        rw [lexeme_alpha_iff ha] at h h'
        rw [h.1, h'.1]
      | false =>
        rw [lexeme_symbol_iff hd ha] at h h'
        rw [h.1, h'.1]

theorem symbols_pairwise : symbols.Pairwise fun s u => ¬ s.toList <+: u.toList := by
  decide

theorem symbol?_eq_some {t : Token} (h : symbol? cs = some (t, rest)) :
    ∃ s ∈ symbols, t = .reserved s ∧ cs = s.toList ++ rest ∧
      ∀ u ∈ symbols, u.toList <+: cs → u.toList.length ≤ s.toList.length := by
  obtain ⟨before, s, after, hs, hf, hbefore⟩ := List.findSome?_eq_some_iff.1 h
  obtain ⟨r, hr, ht⟩ := Option.map_eq_some_iff.1 hf
  cases ht
  rw [strip?_eq_some_iff] at hr
  refine ⟨s, by simp [hs], rfl, hr, fun u hu hpre => ?_⟩
  rw [hs] at hu
  obtain hu | hu := List.mem_append.1 hu
  · obtain ⟨v, hv⟩ := hpre
    have hn := hbefore u hu
    rw [strip?_eq_some_iff.2 hv.symm] at hn
    cases hn
  · obtain rfl | hu := List.mem_cons.1 hu
    · exact Nat.le_refl _
    · -- The symbol that was found does not begin the later one, so the later one begins it.
      have hp := symbols_pairwise
      rw [hs, List.pairwise_append, List.pairwise_cons] at hp
      obtain hus | hsu := List.prefix_or_prefix_of_prefix hpre ⟨rest, hr.symm⟩
      · exact hus.length_le
      · exact absurd hsu (hp.2.1.1 u hu)

theorem symbol?_eq_none_of (h : c.isDigit ∨ c.isAlpha) : symbol? (c :: cs) = none := by
  refine Option.eq_none_iff_forall_ne_some.2 fun ⟨t, rest⟩ hs => ?_
  obtain ⟨s, hs, -, hcs, -⟩ := symbol?_eq_some hs
  obtain ⟨d, ds, hd, hdd, hda, -⟩ := symbol_head s hs
  rw [hd] at hcs
  cases hcs
  simp_all

theorem token?_digit (h : c.isDigit) :
    token? (c :: cs) =
      some (.int (String.ofList (c :: cs.takeWhile Char.isDigit)), cs.dropWhile Char.isDigit) := by
  simp [token?, symbol?_eq_none_of (.inl h), int?, h]

theorem token?_alpha (h : c.isAlpha) :
    token? (c :: cs) =
      some (wordToken (String.ofList (c :: cs.takeWhile isWordChar)), cs.dropWhile isWordChar) := by
  have hd : c.isDigit = false := by
    cases hd : c.isDigit with
    | false => rfl
    | true => rw [isAlpha_of_isDigit hd] at h; cases h
  simp [token?, symbol?_eq_none_of (.inr h), int?, hd, word?, h]

theorem token?_symbol (hd : c.isDigit = false) (ha : c.isAlpha = false) :
    token? (c :: cs) = symbol? (c :: cs) := by
  simp [token?, int?, word?, hd, ha]

theorem longest_of_run {p : Char → Bool} {t : Token}
    (ht : t.text.toList = c :: cs.takeWhile p) (hlex : Lexeme t.tag (c :: cs.takeWhile p))
    (hp : ∀ tag ds, Lexeme tag (c :: ds) → ∀ d ∈ ds, p d) : Longest t (c :: cs) := by
  refine ⟨ht ▸ hlex, fun tag text hpre htext => ?_⟩
  rw [ht]
  cases text with
  | nil => exact Nat.zero_le _
  | cons d ds =>
    obtain ⟨rfl, hds⟩ := List.cons_prefix_cons.1 hpre
    exact Nat.succ_le_succ (length_le_takeWhile hds (hp tag ds htext))

theorem longest_of_token? {t : Token} (h : token? cs = some (t, rest)) :
    cs = t.text.toList ++ rest ∧ Longest t cs := by
  cases cs with
  | nil => simp [token?, symbol?, symbols, strip?, int?, word?] at h
  | cons c cs =>
    cases hd : c.isDigit with
    | true =>
      rw [token?_digit hd] at h
      cases h
      refine ⟨by simp [Token.int], longest_of_run (p := Char.isDigit) (by simp [Token.int]) ?_ ?_⟩
      · exact (lexeme_digit_iff hd).2 ⟨rfl, takeWhile_all _ _⟩
      · exact fun tag ds hl => ((lexeme_digit_iff hd).1 hl).2
    | false =>
      cases ha : c.isAlpha with
      | true =>
        rw [token?_alpha ha] at h
        cases h
        refine ⟨by simp, longest_of_run (p := isWordChar) (by simp) ?_ ?_⟩
        · exact (lexeme_alpha_iff ha).2 ⟨rfl, takeWhile_all _ _⟩
        · exact fun tag ds hl => ((lexeme_alpha_iff ha).1 hl).2
      | false =>
        rw [token?_symbol hd ha] at h
        obtain ⟨s, hs, rfl, hcs, hlongest⟩ := symbol?_eq_some h
        refine ⟨hcs, .inr (by simpa [Token.reserved] using hs), fun tag text hpre htext => ?_⟩
        cases text with
        | nil => exact Nat.zero_le _
        | cons d ds =>
          obtain ⟨rfl, -⟩ := List.cons_prefix_cons.1 hpre
          have hmem := ((lexeme_symbol_iff hd ha).1 htext).2
          have hle := hlongest _ hmem (by simpa using hpre)
          rwa [String.toList_ofList] at hle

theorem exists_token? {text : List Char} (hpre : text <+: cs) (h : Lexeme tag text) :
    ∃ t rest, token? cs = some (t, rest) := by
  cases text with
  | nil => exact absurd h not_lexeme_nil
  | cons c text =>
    obtain ⟨rest, rfl⟩ := hpre
    rw [List.cons_append]
    cases hd : c.isDigit with
    | true => exact ⟨_, _, token?_digit hd⟩
    | false =>
      cases ha : c.isAlpha with
      | true => exact ⟨_, _, token?_alpha ha⟩
      | false =>
        rw [token?_symbol hd ha]
        have hmem := ((lexeme_symbol_iff hd ha).1 h).2
        cases hs : symbol? (c :: (text ++ rest)) with
        | some found => exact ⟨_, _, rfl⟩
        | none =>
          have hnone := List.findSome?_eq_none_iff.1 hs _ hmem
          have hstrip : strip? (c :: text) (c :: (text ++ rest)) = some rest :=
            strip?_eq_some_iff.2 rfl
          rw [String.toList_ofList, hstrip] at hnone
          cases hnone

/-- The rules find a token at the head of the source exactly if it is the longest one there. -/
theorem token?_eq_some_iff {t : Token} :
    token? cs = some (t, rest) ↔ cs = t.text.toList ++ rest ∧ Longest t cs := by
  refine ⟨longest_of_token?, fun ⟨hcs, hlex, hlongest⟩ => ?_⟩
  obtain ⟨u, v, hu⟩ := exists_token? ⟨rest, hcs.symm⟩ hlex
  obtain ⟨hcs', hlex', hlongest'⟩ := longest_of_token? hu
  have hle := hlongest _ _ ⟨v, hcs'.symm⟩ hlex'
  have hge := hlongest' _ _ ⟨rest, hcs.symm⟩ hlex
  have heq : t.text.toList = u.text.toList ∧ rest = v :=
    List.append_inj (hcs.symm.trans hcs') (Nat.le_antisymm hge hle)
  have htext : t.text = u.text := String.toList_inj.1 heq.1
  have htag : t.tag = u.tag := hlex.tag_unique (heq.1 ▸ hlex')
  have htu : t = u := by
    cases t
    cases u
    cases htext
    cases htag
    rfl
  rw [hu, htu, heq.2]

end ImpLang.Lexer
