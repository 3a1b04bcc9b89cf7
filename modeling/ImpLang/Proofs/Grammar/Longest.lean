import ImpLang.Command.Program
import ImpLang.Proofs.Grammar.Sound
import ImpLang.Proofs.Grammar.Unambiguous
import ImpLang.Proofs.Parser.Headway
import ImpLang.Proofs.Parser.Matches

namespace ImpLang.Grammar

open ImpLang.Parser (Joins Matches Refuses Replies Spans)

variable {T : Type} [Number T] {κ : Kind} {k : Symbol κ} {ts : Array Token} {pos : Nat}
  {rest : List Token}

/-- Where the phrase stands, the parser of its symbol matches at least as much. -/
def Complete (ts : Array Token) (d : Phrase T k) : Prop :=
  ∀ pos rest, ts.toList.drop pos = d.word ++ rest →
    Matches (rules (T := T)) ts k.parser pos (pos + d.word.length ≤ ·)

theorem drop_add {w : List Token} (h : ts.toList.drop pos = w ++ rest) :
    ts.toList.drop (pos + w.length) = rest := by
  rw [← List.drop_drop, h, List.drop_left]

theorem drop_succ {t : Token} (h : ts.toList.drop pos = t :: rest) :
    ts.toList.drop (pos + 1) = rest :=
  drop_add (w := [t]) h

theorem Complete.exact {d : Phrase T k} {t : Token} (hd : Complete ts d)
    (h : ts.toList.drop pos = d.word ++ t :: rest) (ht : t ∉ k.continuations) :
    Matches (rules (T := T)) ts k.parser pos (· = pos + d.word.length) := by
  intro depth r hr
  obtain ⟨stop, v, rfl, hle⟩ := hd pos _ h depth r hr
  obtain ⟨e, hspan, -⟩ := exists_phrase hr
  refine ⟨stop, v, rfl, ?_⟩
  -- A longer match would go on behind `d` with `t`.
  obtain ⟨rfl, -⟩ | ⟨-, hc⟩ | ⟨hlt, -⟩ := d.apart e (t :: rest) _ (h.symm.trans hspan.1)
  · exact hspan.2
  · exact absurd (Symbol.continues_cons.1 hc) ht
  · have := hspan.2
    omega

theorem reserved_matches {s : String} (h : ts.toList.drop pos = .reserved s :: rest) :
    Matches (rules (T := T)) ts (Parser.reserved s) pos (· = pos + 1) :=
  .token h

theorem parens_matches {α : Type} {p : GrammarParser T α} {w : List Token}
    (h : ts.toList.drop pos = .reserved "(" :: (w ++ .reserved ")" :: rest))
    (hp : Matches rules ts p (pos + 1) (· = pos + 1 + w.length)) :
    Matches rules ts (Parser.parens p) pos (pos + (w.length + 2) ≤ ·) := by
  have hclose := reserved_matches (T := T) (drop_add (drop_succ h))
  refine .map (.seq (.seq (.token h) hp) (hclose.mono ?_))
  intro n hn
  omega

theorem int_complete {text : String} {n : T} (denotes : Number.literal? text = some n) :
    Complete ts (Phrase.int text n denotes) := by
  intro pos rest h
  have hn : Matches (rules (T := T)) ts number pos (· = pos + 1) := .filterMap_tagged h denotes
  refine .alt_left (.alt_left (.map (hn.mono ?_)))
  rintro _ rfl
  exact Nat.le_refl _

theorem name_complete (x : String) : Complete ts (Phrase.name x : Phrase T .factor) := by
  intro pos rest h
  have hx : Matches (rules (T := T)) ts name pos (· = pos + 1) := .tagged h
  refine .alt_left (.alt_right ?_ (.map (hx.mono ?_)))
  · exact .map (.filterMap (.tagged h Tag.noConfusion))
  · rintro _ rfl
    exact Nat.le_refl _

theorem group_complete {a : Phrase T .aexp} (ha : Complete ts a) :
    Complete ts (Phrase.group a) := by
  intro pos rest h
  simp only [Phrase.word, List.cons_append, List.append_assoc, List.nil_append] at h
  have hp := parens_matches h (.rule (i := Category.arith) (ha.exact (drop_succ h) (by decide)))
  refine .alt_right ?_ (hp.mono ?_)
  · exact .alt (.map (.filterMap (.tagged h (by decide)))) (.map (.tagged h (by decide)))
  · intro n hn
    simpa [Phrase.word] using hn

theorem Complete.matches_behind {d : Phrase T k} (hd : Complete ts d) (m : Nat)
    (h : ts.toList.drop (pos + m) = d.word ++ rest) {n : Nat} (hn : n = m + d.word.length) :
    Matches (rules (T := T)) ts k.parser (pos + m) (pos + n ≤ ·) := by
  rw [hn, ← Nat.add_assoc]
  exact hd _ _ h

theorem not_complete {b : Phrase T .operand} (hb : Complete ts b) :
    Complete ts (Phrase.not b) := by
  intro pos rest h
  have hn := hb.matches_behind 1 (drop_succ h) (Nat.add_comm b.word.length 1)
  exact .alt_left (.alt_left (.map (.seq (.token h) (.rule (i := Category.operand) hn))))

theorem refuses_negation {t : Token} (h : ts.toList.drop pos = t :: rest)
    (ht : t ≠ .reserved "not") : Refuses (rules (T := T)) ts negation pos :=
  .map (.seq _ (.token h ht))

theorem relation_matches {r : Relop} (h : ts.toList.drop pos = r.token :: rest) :
    Matches (rules (T := T)) ts relation pos (· = pos + 1) :=
  .map (.oneOf h r.2)

theorem compare_complete {a b : Phrase T .aexp} (r : Relop) (ha : Complete ts a)
    (hb : Complete ts b) : Complete ts (Phrase.compare a r b) := by
  intro pos rest h
  obtain ⟨t, w, hw, ht⟩ := a.head_aexp
  simp only [Phrase.word, List.append_assoc, List.cons_append] at h
  have hl := ha.exact h r.token_not_mem
  have hr := relation_matches (T := T) (drop_add h)
  have hn := hb.matches_behind (a.word.length + 1) (drop_succ (drop_add h)) rfl
  refine .alt_left (.alt_right ?_ (.map (.seq (.seq hl hr) (hn.mono ?_))))
  · rw [hw] at h
    refine refuses_negation h ?_
    rintro rfl
    exact absurd (ht rfl) (by decide)
  · intro n hn
    simp only [Phrase.word, List.length_append, List.length_cons]
    omega

theorem refuses_comparison {b : Phrase T .bexp}
    (h : ts.toList.drop pos = (Phrase.condition b).word ++ rest) :
    Refuses (rules (T := T)) ts comparison pos := by
  refine .of_language ruleDerives_of_language ?_
  intro stop w v hspan hw
  obtain ⟨d, r, e, rfl, -⟩ := exists_compare hw
  exact Phrase.compare_ne_condition d e r b _ _ (hspan.1.symm.trans h)

theorem condition_complete {b : Phrase T .bexp} (hb : Complete ts b) :
    Complete ts (Phrase.condition b) := by
  intro pos rest h
  have hc := refuses_comparison h
  simp only [Phrase.word, List.cons_append, List.append_assoc, List.nil_append] at h
  have hp := parens_matches h (.rule (i := Category.boolean) (hb.exact (drop_succ h) (by decide)))
  refine .alt_right (.alt (refuses_negation h (by decide)) hc) (hp.mono ?_)
  intro n hn
  simpa [Phrase.word] using hn

theorem assign_complete {a : Phrase T .aexp} (x : String) (ha : Complete ts a) :
    Complete ts (Phrase.assign x a) := by
  intro pos rest h
  have hx : Matches (rules (T := T)) ts name pos (· = pos + 1) := .tagged h
  have ht := reserved_matches (T := T) (drop_succ h)
  have hn := ha.matches_behind 2 (drop_succ (drop_succ h)) (Nat.add_comm a.word.length 2)
  exact .alt_left (.alt_left (.alt_left (.map (.seq (.seq hx ht) hn))))

theorem refuses_assignment {t : Token} (h : ts.toList.drop pos = t :: rest) (ht : t.tag ≠ .id) :
    Refuses (rules (T := T)) ts assignment pos :=
  .map (.seq _ (.seq _ (.tagged h ht)))

theorem refuses_conditional {t : Token} (h : ts.toList.drop pos = t :: rest)
    (ht : t ≠ .reserved "if") : Refuses (rules (T := T)) ts conditional pos :=
  .map (.seq _ (.seq _ (.seq _ (.seq _ (.seq _ (.token h ht))))))

theorem refuses_loop {t : Token} (h : ts.toList.drop pos = t :: rest)
    (ht : t ≠ .reserved "while") : Refuses (rules (T := T)) ts Grammar.loop pos :=
  .map (.seq _ (.seq _ (.seq _ (.seq _ (.token h ht)))))

theorem print_complete {a : Phrase T .aexp} (ha : Complete ts a) :
    Complete ts (Phrase.print a) := by
  intro pos rest h
  have hn := ha.matches_behind 1 (drop_succ h) (Nat.add_comm a.word.length 1)
  refine .alt_right (.alt (.alt ?_ ?_) ?_) (.map (.seq (.token h) hn))
  · exact refuses_assignment h (by decide)
  · exact refuses_conditional h (by decide)
  · exact refuses_loop h (by decide)

theorem loop_complete {b : Phrase T .bexp} {c : Phrase T .statements} (hb : Complete ts b)
    (hc : Complete ts c) : Complete ts (Phrase.loop b c) := by
  intro pos rest h
  simp only [Phrase.word, List.cons_append, List.append_assoc, List.nil_append] at h
  have hdo := drop_add (drop_succ h)
  have hend := drop_add (drop_succ hdo)
  have htest := hb.exact (drop_succ h) (by decide)
  have hbody := hc.exact (drop_succ hdo) (by decide)
  have hstop := reserved_matches (T := T) hend
  refine .alt_left (.alt_right (.alt ?_ ?_) (.map ?_))
  · exact refuses_assignment h (by decide)
  · exact refuses_conditional h (by decide)
  · refine .seq (.seq (.seq (.seq (.token h) htest) (.token hdo))
      (.rule (i := Category.statements) hbody)) (hstop.mono ?_)
    rintro n rfl
    simp only [Phrase.word, List.length_cons, List.length_append, List.length_nil]
    omega

theorem ifThen_complete {b : Phrase T .bexp} {c : Phrase T .statements} (hb : Complete ts b)
    (hc : Complete ts c) : Complete ts (Phrase.ifThen b c) := by
  intro pos rest h
  simp only [Phrase.word, List.cons_append, List.append_assoc, List.nil_append] at h
  have hthen := drop_add (drop_succ h)
  have hend := drop_add (drop_succ hthen)
  have htest := hb.exact (drop_succ h) (by decide)
  have hbody := hc.exact (drop_succ hthen) (by decide)
  have hstop := reserved_matches (T := T) hend
  refine .alt_left (.alt_left (.alt_right (refuses_assignment h (by decide)) (.map ?_)))
  have hother : Refuses (rules (T := T)) ts (.seq (Parser.reserved "else") _) _ :=
    .seq (.rule .statements) (.token hend (by decide))
  refine .seq (.seq (.seq (.seq (.seq (.token h) htest) (.token hthen))
    (.rule (i := Category.statements) hbody)) hother.opt) (hstop.mono ?_)
  rintro n rfl
  simp only [Phrase.word, List.length_cons, List.length_append, List.length_nil]
  omega

theorem ifElse_complete {b : Phrase T .bexp} {c d : Phrase T .statements} (hb : Complete ts b)
    (hc : Complete ts c) (hd : Complete ts d) : Complete ts (Phrase.ifElse b c d) := by
  intro pos rest h
  simp only [Phrase.word, List.cons_append, List.append_assoc, List.nil_append] at h
  have hthen := drop_add (drop_succ h)
  have helse := drop_add (drop_succ hthen)
  have hend := drop_add (drop_succ helse)
  have htest := hb.exact (drop_succ h) (by decide)
  have hbody := hc.exact (drop_succ hthen) (by decide)
  have hother := hd.exact (drop_succ helse) (by decide)
  have hstop := reserved_matches (T := T) hend
  refine .alt_left (.alt_left (.alt_right (refuses_assignment h (by decide)) (.map ?_)))
  refine .seq (.seq (.seq (.seq (.seq (.token h) htest) (.token hthen))
    (.rule (i := Category.statements) hbody))
    (.opt (.seq (.token helse) (.rule (i := Category.statements) hother)))) (hstop.mono ?_)
  rintro n rfl
  simp only [Phrase.word, List.length_cons, List.length_append, List.length_nil]
  omega

theorem headway : Parser.Headway (fun _ => true) (rules (T := T)) where
  consumes i _ := by cases i <;> rfl
  guarded i := by cases i <;> rfl

variable {l : Level κ} {ps : List (l.Op × Phrase T l.element)}

theorem separator_matches (o : l.Op) (h : ts.toList.drop pos = o.token :: rest) :
    Matches (rules (T := T)) ts l.separator pos (· = pos + 1) := by
  obtain ⟨o, ho⟩ := o
  cases l with
  | product | sum | conjunction | disjunction => exact .map (.oneOf h ho)
  | sequence => exact .map (.token h)

/-- An element with a row of others behind it is matched exactly; the last one may be exceeded. -/
theorem element_matches {e : Phrase T l.element} (he : Complete ts e)
    (h : ts.toList.drop pos = e.word ++ (Phrase.tailWord ps ++ rest)) :
    Matches (rules (T := T)) ts l.element.parser pos
      fun next => next = pos + e.word.length ∨ ps = [] ∧ pos + e.word.length ≤ next := by
  cases ps with
  | nil => exact (he pos _ h).mono fun n hn => .inr ⟨rfl, hn⟩
  | cons p ps => exact (he.exact h p.1.token_not_mem).mono fun n hn => .inl hn

theorem joins_reach {depth n : Nat} {left : κ.Value T} {found : Nat × κ.Value T}
    (hps : ∀ p ∈ ps, Complete ts p.2)
    (h : ts.toList.drop pos = Phrase.tailWord ps ++ rest)
    (hj : Joins (rules (T := T)) ts depth l.element.parser l.separator n pos left found) :
    pos + (Phrase.tailWord ps).length ≤ found.1 := by
  induction ps generalizing n pos left with
  | nil => exact hj.le headway
  | cons p ps ih =>
    simp only [Phrase.tailWord_cons, List.cons_append, List.append_assoc] at h
    have hsep := separator_matches (T := T) p.1 h
    have he := element_matches (hps p List.mem_cons_self) (drop_succ h)
    cases hj with
    | done hs =>
      obtain ⟨_, _, hs, -⟩ := hsep _ _ hs
      cases hs
    | dangling hs hp =>
      obtain ⟨_, _, hs, rfl⟩ := hsep _ _ hs
      cases hs
      obtain ⟨_, _, hp, -⟩ := he _ _ hp
      cases hp
    | step hs hp hrest =>
      obtain ⟨_, _, hs, rfl⟩ := hsep _ _ hs
      cases hs
      obtain ⟨_, _, hp, hnext⟩ := he _ _ hp
      cases hp
      simp only [Phrase.tailWord_cons, List.length_cons, List.length_append]
      obtain rfl | ⟨rfl, hle⟩ := hnext
      · have := ih (fun q hq => hps q (List.mem_cons_of_mem p hq)) (drop_add (drop_succ h)) hrest
        omega
      · have := hrest.le headway
        simp only [Phrase.tailWord_nil, List.length_nil]
        omega

theorem list_complete (d : Phrase T (.list l)) (hf : Complete ts d.first)
    (ho : ∀ p ∈ d.others, Complete ts p.2) : Complete ts d := by
  intro pos rest h depth r hr
  rw [Phrase.word_eq, List.append_assoc] at h
  have he := element_matches hf h
  rw [parser_list] at hr
  obtain ⟨hp, -⟩ | ⟨next, a, found, hp, hj, rfl⟩ := Parser.replies_sepBy.1 hr
  · obtain ⟨_, _, hp, -⟩ := he _ _ hp
    cases hp
  · obtain ⟨_, _, hp, hnext⟩ := he _ _ hp
    cases hp
    refine ⟨found.1, found.2, rfl, ?_⟩
    rw [Phrase.word_eq, List.length_append]
    obtain rfl | ⟨hn, hle⟩ := hnext
    · have := joins_reach ho (drop_add h) hj
      omega
    · have := hj.le headway
      rw [hn, Phrase.tailWord_nil, List.length_nil]
      omega

theorem complete (d : Phrase T k) : Complete ts d := by
  induction d using Phrase.elements_induction with
  | int text n denotes => exact int_complete denotes
  | name x => exact name_complete x
  | group a ih => exact group_complete ih
  | not b ih => exact not_complete ih
  | compare a r b iha ihb => exact compare_complete r iha ihb
  | condition b ih => exact condition_complete ih
  | assign x a ih => exact assign_complete x ih
  | ifThen b c ihb ihc => exact ifThen_complete ihb ihc
  | ifElse b c d ihb ihc ihd => exact ifElse_complete ihb ihc ihd
  | loop b c ihb ihc => exact loop_complete ihb ihc
  | print a ih => exact print_complete ih
  | list d ihf iho => exact list_complete d ihf iho

theorem parser_guarded (k : Symbol κ) :
    Parser.guarded (fun _ => true) false (k.parser (T := T)) = true := by
  cases k with
  | factor | operand | statement => rfl
  | list l => cases l <;> rfl

theorem replies_parseAt_of_guarded {α : Type} {p : GrammarParser T α}
    (hg : Parser.guarded (fun _ => true) false p = true) (ts : Array Token) (start : Nat) :
    Replies rules ts (ts.size - start) p start (parseAt p ts start) := by
  obtain ⟨r, hr⟩ := Parser.exists_replies headway hg (Nat.le_refl start) (.inl rfl) (by simp)
    (Nat.le_refl (ts.size - start))
  have h : parseAt p ts start = r := by
    rw [parseAt, show _ = some r from hr]
    rfl
  rwa [h]

theorem replies_parseAt (k : Symbol κ) (ts : Array Token) (start : Nat) :
    Replies (rules (T := T)) ts (ts.size - start) k.parser start (parseAt k.parser ts start) :=
  replies_parseAt_of_guarded (parser_guarded k) ts start

/-- The tokens from `start` to `stop` are a word that the symbol derives, with that value. -/
def DerivesBetween (k : Symbol κ) (ts : Array Token) (start stop : Nat) (v : κ.Value T) : Prop :=
  start ≤ stop ∧ stop ≤ ts.size ∧ Derives k (ts.extract start stop).toList v

theorem extract_eq_iff {start stop : Nat} {w : List Token} (hw : w ≠ []) :
    start ≤ stop ∧ stop ≤ ts.size ∧ (ts.extract start stop).toList = w ↔
      Spans ts start stop w := by
  rw [Array.toList_extract, List.extract_eq_take_drop]
  constructor
  · rintro ⟨hle, hsize, rfl⟩
    refine ⟨?_, ?_⟩
    · have := List.take_append_drop (stop - start) (ts.toList.drop start)
      rw [List.drop_drop, Nat.add_sub_cancel' hle] at this
      exact this.symm
    · simp only [List.length_take, List.length_drop, Array.length_toList]
      omega
  · intro h
    refine ⟨h.le, h.stop_le hw, ?_⟩
    rw [h.1, h.2, Nat.add_sub_cancel_left, List.take_left]

theorem derivesBetween_iff {start stop : Nat} {v : κ.Value T} :
    DerivesBetween k ts start stop v ↔
      ∃ d : Phrase T k, Spans ts start stop d.word ∧ d.value = v := by
  constructor
  · rintro ⟨hle, hsize, d, hd, hv⟩
    exact ⟨d, (extract_eq_iff d.word_ne_nil).1 ⟨hle, hsize, hd.symm⟩, hv⟩
  · rintro ⟨d, hspan, hv⟩
    obtain ⟨hle, hsize, hd⟩ := (extract_eq_iff d.word_ne_nil).2 hspan
    exact ⟨hle, hsize, d, hd.symm, hv⟩

theorem exists_match {start stop : Nat} {v : κ.Value T} (h : DerivesBetween k ts start stop v) :
    ∃ last, ∃ u : κ.Value T, parseAt k.parser ts start = some (last, u) ∧ stop ≤ last := by
  obtain ⟨d, hspan, rfl⟩ := derivesBetween_iff.1 h
  obtain ⟨last, u, hr, hle⟩ := complete d start _ hspan.1 _ _ (replies_parseAt k ts start)
  exact ⟨last, u, hr, hspan.2 ▸ hle⟩

theorem derivesBetween_of_match {start stop : Nat} {v : κ.Value T}
    (h : parseAt k.parser ts start = some (stop, v)) : DerivesBetween k ts start stop v := by
  have hr := replies_parseAt (T := T) k ts start
  rw [h] at hr
  exact derivesBetween_iff.2 (exists_phrase hr)

theorem DerivesBetween.unique {start stop : Nat} {u v : κ.Value T}
    (hu : DerivesBetween k ts start stop u) (hv : DerivesBetween k ts start stop v) : u = v := by
  obtain ⟨-, -, d, hd, rfl⟩ := hu
  obtain ⟨-, -, e, he, rfl⟩ := hv
  rw [Phrase.word_inj (hd.trans he.symm)]

theorem parseAt_eq_some_iff {start stop : Nat} {v : κ.Value T} :
    parseAt k.parser ts start = some (stop, v) ↔
      DerivesBetween k ts start stop v ∧
        ∀ later u, stop < later → ¬ DerivesBetween (T := T) k ts start later u := by
  constructor
  · intro h
    refine ⟨derivesBetween_of_match h, ?_⟩
    intro later u hlt hu
    obtain ⟨last, w, hm, hle⟩ := exists_match hu
    cases h.symm.trans hm
    omega
  · rintro ⟨hv, hlongest⟩
    obtain ⟨last, u, hm, hle⟩ := exists_match hv
    have hu := derivesBetween_of_match hm
    have hlast : last = stop := by
      obtain hlt | heq := Nat.lt_or_eq_of_le hle
      · exact absurd hu (hlongest last u hlt)
      · exact heq.symm
    rw [hlast] at hm hu
    rw [hm, hu.unique hv]

theorem parseAt_eq_none_iff {start : Nat} :
    parseAt (k.parser (T := T)) ts start = none ↔
      ∀ stop v, ¬ DerivesBetween (T := T) k ts start stop v := by
  constructor
  · intro h stop v hv
    obtain ⟨last, u, hm, -⟩ := exists_match hv
    cases h.symm.trans hm
  · intro h
    match hm : parseAt (k.parser (T := T)) ts start with
    | none => rfl
    | some (stop, v) => exact absurd (derivesBetween_of_match hm) (h stop v)

theorem derivesBetween_all {v : κ.Value T} :
    DerivesBetween k ts 0 ts.size v ↔ Derives k ts.toList v := by
  simp [DerivesBetween]

theorem parseAt_program (ts : Array Token) :
    parseAt (program (T := T)) ts 0 =
      (parseAt Grammar.statements ts 0).filter fun (stop, _) => stop == ts.size := by
  have h : Replies (rules (T := T)) ts (ts.size - 0) program 0 _ :=
    Parser.replies_whole.2 ⟨_, replies_parseAt .statements ts 0, rfl⟩
  rw [parseAt, show (Parser.run (rules (T := T)) ts (ts.size - 0) program 0).value? = _ from h]
  rfl

theorem parseAt_program_iff {stop : Nat} {c : Command T} :
    parseAt program ts 0 = some (stop, c) ↔
      stop = ts.size ∧ Derives .statements ts.toList c := by
  rw [parseAt_program, Option.filter_eq_some_iff, beq_iff_eq]
  constructor
  · rintro ⟨h, rfl⟩
    exact ⟨rfl, derivesBetween_all.1 (derivesBetween_of_match (k := .statements) h)⟩
  · rintro ⟨rfl, h⟩
    refine ⟨(parseAt_eq_some_iff (k := .statements)).2 ⟨derivesBetween_all.2 h, ?_⟩, rfl⟩
    intro later u hlt hu
    have := hu.2.1
    omega

/-- The parsers of the grammar, ordered and greedy as they are, match the longest phrases that the
grammar derives, so that the grammar is unambiguous and the programs are its statement lists. -/
theorem parses_longest_phrase (T : Type) [Number T] (ts : Array Token) :
    (∀ {κ : Kind} (k : Symbol κ) (start : Nat),
      (Parser.run (rules (T := T)) ts (ts.size - start) k.parser start).value? =
        some (parseAt k.parser ts start) ∧
      (∀ stop (v : κ.Value T), parseAt k.parser ts start = some (stop, v) ↔
        DerivesBetween k ts start stop v ∧
          ∀ later (u : κ.Value T), stop < later → ¬ DerivesBetween k ts start later u) ∧
      (parseAt (k.parser (T := T)) ts start = none ↔
        ∀ stop (v : κ.Value T), ¬ DerivesBetween k ts start stop v)) ∧
    (∀ {κ : Kind} (k : Symbol κ) (d e : Phrase T k), d.word = e.word → d = e) ∧
    (∀ stop (c : Command T), parseAt program ts 0 = some (stop, c) ↔
      stop = ts.size ∧ Derives .statements ts.toList c) ∧
    ∀ c : Command T, Command.ofTokens? ts = some c ↔ Derives .statements ts.toList c := by
  refine ⟨?_, ?_, ?_, ?_⟩
  · intro κ k start
    exact ⟨replies_parseAt k ts start, fun _ _ => parseAt_eq_some_iff, parseAt_eq_none_iff⟩
  · intro κ k d e h
    exact Phrase.word_inj h
  · intro stop c
    exact parseAt_program_iff
  · intro c
    rw [Command.ofTokens?, Option.map_eq_some_iff]
    constructor
    · rintro ⟨⟨stop, c⟩, h, rfl⟩
      exact (parseAt_program_iff.1 h).2
    · intro h
      exact ⟨(ts.size, c), parseAt_program_iff.2 ⟨rfl, h⟩, rfl⟩

end ImpLang.Grammar
