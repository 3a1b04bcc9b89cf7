import Mathlib
import ImpLang.Store.Reader
import ImpLang.Proofs.Store.Lookup
import ImpLang.Proofs.Store.Written

namespace ImpLang.Store

open Lexer Written

namespace Reader

/-- The text does not begin with such a character. -/
def Stops (p : Char → Bool) (rest : List Char) : Prop := ∀ c ∈ rest.head?, p c = false

variable {p : Char → Bool} {c mark : Char} {cs front rest : List Char} {x : String} {v : Int64}
  {b : String × Int64} {bs : List (String × Int64)}

theorem stops_cons : Stops p (c :: cs) ↔ p c = false := by simp [Stops]

theorem stops_dropWhile (p : Char → Bool) (cs : List Char) : Stops p (cs.dropWhile p) := by
  have hhead := List.head?_dropWhile_not p cs
  intro c hc
  rw [Option.mem_def.1 hc] at hhead
  exact hhead

theorem span_iff : cs.takeWhile p = front ∧ cs.dropWhile p = rest ↔
    cs = front ++ rest ∧ (∀ c ∈ front, p c) ∧ Stops p rest := by
  constructor
  · rintro ⟨rfl, rfl⟩
    exact ⟨List.takeWhile_append_dropWhile.symm, takeWhile_all p cs, stops_dropWhile p cs⟩
  · rintro ⟨rfl, hfront, hrest⟩
    rw [List.takeWhile_append_of_pos hfront, List.dropWhile_append_of_pos hfront]
    cases rest with
    | nil => simp
    | cons c rest => simp [stops_cons.1 hrest]

theorem skipBlanks_eq_iff : skipBlanks cs = rest ↔
    ∃ before, Blanks before ∧ cs = before ++ rest ∧ Stops isBlank rest := by
  constructor
  · intro h
    obtain ⟨hcs, hblanks, hrest⟩ := span_iff.1 ⟨rfl, h⟩
    exact ⟨_, hblanks, hcs, hrest⟩
  · rintro ⟨before, hblanks, hcs, hrest⟩
    exact (span_iff.2 ⟨hcs, hblanks, hrest⟩).2

theorem name?_eq_some_iff : name? cs = some (x, rest) ↔
    IsWord x.toList ∧ cs = x.toList ++ rest ∧ Stops isWordChar rest := by
  constructor
  · intro h
    cases cs with
    | nil => cases h
    | cons c cs =>
      simp only [name?] at h
      split at h
      · rename_i hc
        cases h
        obtain ⟨hcs, hword, hrest⟩ := span_iff.1 ⟨rfl, rfl⟩
        exact ⟨⟨c, _, String.toList_ofList, hc, hword⟩, by simp, hrest⟩
      · cases h
  · rintro ⟨⟨c, word, hx, hc, hword⟩, rfl, hrest⟩
    obtain ⟨htake, hdrop⟩ := span_iff.2 ⟨rfl, hword, hrest⟩
    rw [hx, List.cons_append, name?, hc, htake, hdrop, ← hx, String.ofList_toList]
    rfl

theorem mark?_eq_some_iff (hm : isBlank mark = false) : mark? mark cs = some rest ↔
    ∃ before after, Blanks before ∧ Blanks after ∧ cs = before ++ mark :: (after ++ rest) ∧
      Stops isBlank rest := by
  constructor
  · intro h
    unfold mark? at h
    split at h
    · cases h
    · rename_i c next hnext
      split at h
      · rename_i hc
        subst hc
        obtain ⟨before, hbefore, rfl, -⟩ := skipBlanks_eq_iff.1 hnext
        obtain ⟨after, hafter, rfl, hrest⟩ := skipBlanks_eq_iff.1 (Option.some.inj h)
        exact ⟨before, after, hbefore, hafter, rfl, hrest⟩
      · cases h
  · rintro ⟨before, after, hbefore, hafter, rfl, hrest⟩
    have hmark : skipBlanks (before ++ mark :: (after ++ rest)) = mark :: (after ++ rest) :=
      skipBlanks_eq_iff.2 ⟨before, hbefore, rfl, stops_cons.2 hm⟩
    have hnext : skipBlanks (after ++ rest) = rest :=
      skipBlanks_eq_iff.2 ⟨after, hafter, rfl, hrest⟩
    rw [mark?, hmark]
    simp only [hnext, if_true]

theorem int64?_eq_some_iff {n : Int} : Number.int64? n = some v ↔ v.toInt = n := by
  change Number.ofInt? n = some v ↔ Number.toInt v = n
  exact Number.ofInt?_eq_some_iff

theorem magnitude_eq_ok_iff {negative : Bool} : magnitude negative cs = .ok (v, rest) ↔
    ∃ ds, ds ≠ [] ∧ (∀ d ∈ ds, d.isDigit) ∧
      v.toInt = (if negative then -(Nat.ofDigitChars 10 ds 0 : Int) else Nat.ofDigitChars 10 ds 0) ∧
      cs = ds ++ rest ∧ Stops Char.isDigit rest := by
  constructor
  · intro h
    unfold magnitude at h
    split at h
    · cases h
    · rename_i n hn
      obtain ⟨hne, hds, rfl⟩ := Literal.digits?_eq_some hn
      split at h
      · rename_i w hv
        cases h
        obtain ⟨hcs, -, hrest⟩ := span_iff.1 ⟨rfl, rfl⟩
        exact ⟨_, hne, hds, int64?_eq_some_iff.1 hv, hcs, hrest⟩
      · cases h
  · rintro ⟨ds, hne, hds, hv, rfl, hrest⟩
    obtain ⟨htake, hdrop⟩ := span_iff.2 ⟨rfl, hds, hrest⟩
    have hint := int64?_eq_some_iff.2 hv
    simp only [magnitude, htake, hdrop, Literal.digits?_of_digits hne hds, hint]

theorem value_eq_ok_iff : value cs = .ok (v, rest) ↔
    ∃ text, Value text v ∧ cs = text ++ rest ∧ Stops Char.isDigit rest := by
  constructor
  · intro h
    unfold value at h
    split at h
    · obtain ⟨ds, hne, hds, hv, rfl, hrest⟩ := magnitude_eq_ok_iff.1 h
      exact ⟨_, .minus hne hds hv, rfl, hrest⟩
    · obtain ⟨ds, hne, hds, hv, rfl, hrest⟩ := magnitude_eq_ok_iff.1 h
      exact ⟨_, .digits hne hds hv, rfl, hrest⟩
  · rintro ⟨text, hvalue, rfl, hrest⟩
    cases hvalue with
    | digits hne hds hv =>
      have hfalse : value (text ++ rest) = magnitude false (text ++ rest) := by
        obtain ⟨d, ds, rfl⟩ := List.exists_cons_of_ne_nil hne
        rw [List.cons_append, value]
        -- The first digit is no sign.
        rintro _ ⟨⟩
        exact absurd (hds '-' List.mem_cons_self) (by decide)
      rw [hfalse]
      exact magnitude_eq_ok_iff.2 ⟨_, hne, hds, hv, rfl, hrest⟩
    | minus hne hds hv => exact magnitude_eq_ok_iff.2 ⟨_, hne, hds, hv, rfl, hrest⟩

theorem not_wordChar_of_isBlank (h : isBlank c) : isWordChar c = false := by
  by_contra hc
  have hblank := not_blank_of_isWordChar (Bool.of_not_eq_false hc)
  rw [h] at hblank
  cases hblank

theorem not_digit_of_isBlank (h : isBlank c) : c.isDigit = false := by
  by_contra hc
  have hblank := not_blank_of_isWordChar (isWordChar_of_isDigit (Bool.of_not_eq_false hc))
  rw [h] at hblank
  cases hblank

theorem stops_blanks_append (h : Blanks front) (hp : ∀ {c}, isBlank c → p c = false)
    (hrest : Stops p rest) : Stops p (front ++ rest) := by
  cases front with
  | nil => exact hrest
  | cons c front => exact stops_cons.2 (hp (h c List.mem_cons_self))

theorem stops_value (h : Value front v) : Stops isBlank (front ++ rest) := by
  cases h with
  | digits hne hds hv =>
    obtain ⟨d, ds, rfl⟩ := List.exists_cons_of_ne_nil hne
    have hd : d.isDigit := hds d List.mem_cons_self
    exact stops_cons.2 (not_blank_of_isWordChar (isWordChar_of_isDigit hd))
  | minus hne hds hv => exact stops_cons.2 (by decide)

theorem stops_binding (h : Binding front b) : Stops isBlank (front ++ rest) := by
  obtain ⟨⟨c, cs, hx, hc, -⟩, -, -, -⟩ := h
  rw [hx]
  exact stops_cons.2 (not_blank_of_isWordChar (isWordChar_of_isAlpha hc))

theorem stops_more (h : More front bs) (hrest : Stops Char.isDigit rest) :
    Stops Char.isDigit (front ++ rest) := by
  cases h with
  | nil => exact hrest
  | cons hbefore =>
    rw [List.append_assoc]
    exact stops_blanks_append hbefore not_digit_of_isBlank (stops_cons.2 (by decide))

theorem binding?_eq_some_iff : binding? cs = .ok (some (b, rest)) ↔
    ∃ text, Binding text b ∧ cs = text ++ rest ∧ Stops Char.isDigit rest := by
  constructor
  · intro h
    unfold binding? at h
    split at h
    · cases h
    · rename_i x behind hx
      split at h
      · cases h
      · rename_i start hstart
        split at h
        · rename_i v rest' hv
          cases h
          obtain ⟨hword, rfl, -⟩ := name?_eq_some_iff.1 hx
          obtain ⟨before, after, hbefore, hafter, rfl, -⟩ :=
            (mark?_eq_some_iff (by decide)).1 hstart
          obtain ⟨text, hvalue, rfl, hrest⟩ := value_eq_ok_iff.1 hv
          exact ⟨_, .intro hword hbefore hafter hvalue, by simp, hrest⟩
        · cases h
  · rintro ⟨_, @⟨x, before, after, text, v, hx, hbefore, hafter, hvalue⟩, rfl, hrest⟩
    have hstart : mark? ':' (before ++ ':' :: (after ++ (text ++ rest))) = some (text ++ rest) :=
      (mark?_eq_some_iff (by decide)).2
        ⟨before, after, hbefore, hafter, rfl, stops_value hvalue⟩
    have hname : name? (x.toList ++ (before ++ ':' :: (after ++ (text ++ rest)))) =
        some (x, before ++ ':' :: (after ++ (text ++ rest))) :=
      name?_eq_some_iff.2 ⟨hx, rfl,
        stops_blanks_append hbefore not_wordChar_of_isBlank (stops_cons.2 (by decide))⟩
    have hv : value (text ++ rest) = .ok (v, rest) := value_eq_ok_iff.2 ⟨text, hvalue, rfl, hrest⟩
    simp only [List.append_assoc, List.cons_append, binding?, hname, hstart, hv]

theorem moreBindings_of_binding? {next : List Char} (hmark : mark? ',' cs = some next)
    (hb : binding? next = .ok (some (b, rest))) :
    moreBindings cs = (moreBindings rest).map fun (bs, stop) => (b :: bs, stop) := by
  rw [moreBindings]
  split
  · simp_all
  · split <;> simp_all

theorem moreBindings_of_mark?_eq_none (hmark : mark? ',' cs = none) :
    moreBindings cs = .ok ([], cs) := by
  rw [moreBindings]
  split <;> simp_all

theorem map_cons_eq_ok_iff
    {found : Except (ReadError (List Char)) (List (String × Int64) × List Char)} :
    (found.map fun (bs, stop) => (b :: bs, stop)) = .ok (bs, rest) ↔
      ∃ more, found = .ok (more, rest) ∧ b :: more = bs := by
  cases found <;> simp [Except.map, Prod.ext_iff, and_comm, eq_comm]

theorem exists_more_of_moreBindings (h : moreBindings cs = .ok (bs, rest)) :
    ∃ text, More text bs ∧ cs = text ++ rest := by
  fun_induction moreBindings cs generalizing bs rest with
  | case1 cs hmark =>
    cases h
    exact ⟨[], .nil, rfl⟩
  | case2 cs next hmark e hb => cases h
  | case3 cs next hmark hb =>
    cases h
    exact ⟨[], .nil, rfl⟩
  | case4 cs next hmark b behind hb ih =>
    obtain ⟨more, hmore, rfl⟩ := map_cons_eq_ok_iff.1 h
    obtain ⟨before, after, hbefore, hafter, rfl, -⟩ := (mark?_eq_some_iff (by decide)).1 hmark
    obtain ⟨text, hbinding, rfl, -⟩ := binding?_eq_some_iff.1 hb
    obtain ⟨others, hothers, rfl⟩ := ih hmore
    exact ⟨_, .cons hbefore hafter hbinding hothers, by simp⟩

theorem moreBindings_append (h : More front bs) (hmark : mark? ',' rest = none)
    (hrest : Stops Char.isDigit rest) : moreBindings (front ++ rest) = .ok (bs, rest) := by
  induction h with
  | nil => exact moreBindings_of_mark?_eq_none hmark
  | @cons before after text more b bs hbefore hafter hb hmore ih =>
    have hbinding : binding? (text ++ (more ++ rest)) = .ok (some (b, more ++ rest)) :=
      binding?_eq_some_iff.2 ⟨text, hb, rfl, stops_more hmore hrest⟩
    have hcomma : mark? ',' (before ++ ',' :: (after ++ (text ++ (more ++ rest)))) =
        some (text ++ (more ++ rest)) :=
      (mark?_eq_some_iff (by decide)).2 ⟨before, after, hbefore, hafter, rfl, stops_binding hb⟩
    simp only [List.append_assoc, List.cons_append]
    rw [moreBindings_of_binding? hcomma hbinding, ih]
    rfl

theorem exists_bindings_of_bindings (h : bindings cs = .ok (bs, rest)) :
    ∃ text, Bindings text bs ∧ cs = text ++ rest := by
  unfold bindings at h
  split at h
  · cases h
  · cases h
    exact ⟨[], .none, rfl⟩
  · rename_i b behind hb
    obtain ⟨more, hmore, rfl⟩ := map_cons_eq_ok_iff.1 h
    obtain ⟨text, hbinding, rfl, -⟩ := binding?_eq_some_iff.1 hb
    obtain ⟨others, hothers, rfl⟩ := exists_more_of_moreBindings hmore
    exact ⟨_, .some hbinding hothers, by simp⟩

theorem bindings_of_binding? {text : List Char} (hb : binding? cs = .ok (some (b, text))) :
    bindings cs = (moreBindings text).map fun (bs, stop) => (b :: bs, stop) := by
  rw [bindings, hb]

theorem mark?_closing {after : List Char} (hafter : Blanks after) :
    mark? ',' (after ++ ['\x7d']) = none := by
  have hclose : skipBlanks (after ++ ['\x7d']) = ['\x7d'] :=
    skipBlanks_eq_iff.2 ⟨after, hafter, rfl, stops_cons.2 (by decide)⟩
  rw [mark?, hclose]
  rfl

theorem bindings_append {before text after : List Char} (hbefore : Blanks before)
    (hbs : Bindings text bs) (hafter : Blanks after) :
    ∃ behind, Blanks behind ∧
      bindings (skipBlanks (before ++ (text ++ (after ++ ['\x7d'])))) =
        .ok (bs, behind ++ ['\x7d']) := by
  cases hbs with
  | none =>
    have hskip : skipBlanks (before ++ (after ++ ['\x7d'])) = ['\x7d'] :=
      skipBlanks_eq_iff.2 ⟨before ++ after, List.forall_mem_append.2 ⟨hbefore, hafter⟩,
        (List.append_assoc ..).symm, stops_cons.2 (by decide)⟩
    refine ⟨[], List.forall_mem_nil _, ?_⟩
    rw [List.nil_append, hskip]
    rfl
  | @some text more b bs hb hmore =>
    have hclose : Stops Char.isDigit (after ++ ['\x7d']) :=
      stops_blanks_append hafter not_digit_of_isBlank (stops_cons.2 (by decide))
    have hskip : skipBlanks (before ++ (text ++ (more ++ (after ++ ['\x7d'])))) =
        text ++ (more ++ (after ++ ['\x7d'])) :=
      skipBlanks_eq_iff.2 ⟨before, hbefore, rfl, stops_binding hb⟩
    have hfirst : binding? (text ++ (more ++ (after ++ ['\x7d']))) =
        .ok (some (b, more ++ (after ++ ['\x7d']))) :=
      binding?_eq_some_iff.2 ⟨text, hb, rfl, stops_more hmore hclose⟩
    refine ⟨after, hafter, ?_⟩
    rw [List.append_assoc, hskip, bindings_of_binding? hfirst,
      moreBindings_append hmore (mark?_closing hafter) hclose]
    rfl

theorem braces_eq_ok_iff : braces cs = .ok bs ↔ Written cs bs := by
  constructor
  · intro h
    unfold braces at h
    split at h
    · rename_i cs
      split at h
      · cases h
      · rename_i found behind hfound
        split at h
        · rename_i hclose
          cases h
          obtain ⟨text, hbs, hcs⟩ := exists_bindings_of_bindings hfound
          obtain ⟨before, hbefore, rfl, -⟩ := skipBlanks_eq_iff.1 hcs
          obtain ⟨after, hafter, rfl, -⟩ := skipBlanks_eq_iff.1 hclose
          exact .intro hbefore hbs hafter
        · cases h
        · cases h
    · cases h
  · rintro @⟨before, text, after, bs, hbefore, hbs, hafter⟩
    obtain ⟨behind, hbehind, hfound⟩ := bindings_append hbefore hbs hafter
    have hclose : skipBlanks (behind ++ ['\x7d']) = ['\x7d'] :=
      skipBlanks_eq_iff.2 ⟨behind, hbehind, rfl, stops_cons.2 (by decide)⟩
    rw [braces, hfound]
    simp only [hclose]

end Reader

theorem read_eq_ok_iff_braces {text : String} {s : Store Int64} :
    read text = .ok s ↔ ∃ bs, Reader.braces text.toList = .ok bs ∧ ofList bs = s := by
  unfold read
  split
  · rename_i bs hbs
    simp [hbs]
  · simp [*]

theorem hasWords_of_read {text : String} {s : Store Int64} (h : read text = .ok s) :
    s.HasWords := by
  obtain ⟨bs, hbs, rfl⟩ := read_eq_ok_iff_braces.1 h
  intro x hx
  obtain ⟨b, hb, rfl⟩ := List.mem_map.1 (mem_names_ofList_iff.1 hx)
  exact (Reader.braces_eq_ok_iff.1 hbs).isWord b hb

/-- The reader accepts the written stores and nothing else. The store that it returns binds the
names that are listed, each to the value of its last binding. A comma behind the last binding is an
error. -/
theorem read_eq_ok_iff (text : String) :
    ((∃ s, read text = .ok s) ↔ ∃ bs, Written text.toList bs) ∧
    (∀ s, read text = .ok s ↔ ∃ bs, Written text.toList bs ∧
      (∀ x, x ∈ s.names ↔ x ∈ bs.map Prod.fst) ∧
      ∀ x v, s.get? x = some v ↔ BindsLast bs x v) ∧
    ¬ ∃ front after s, Blanks after ∧
      text.toList = front ++ ',' :: (after ++ ['\x7d']) ∧ read text = .ok s := by
  have haccept : ∀ s, read text = .ok s ↔ ∃ bs, Written text.toList bs ∧ ofList bs = s := by
    intro s
    simp only [read_eq_ok_iff_braces, Reader.braces_eq_ok_iff]
  refine ⟨⟨?_, ?_⟩, fun s => ⟨?_, ?_⟩, ?_⟩
  · rintro ⟨s, hs⟩
    obtain ⟨bs, hbs, -⟩ := (haccept s).1 hs
    exact ⟨bs, hbs⟩
  · rintro ⟨bs, hbs⟩
    exact ⟨ofList bs, (haccept _).2 ⟨bs, hbs, rfl⟩⟩
  · intro hs
    obtain ⟨bs, hbs, rfl⟩ := (haccept s).1 hs
    exact ⟨bs, hbs, fun _ => mem_names_ofList_iff, fun _ _ => get?_ofList_eq_some_iff⟩
  · rintro ⟨bs, hbs, -, hs⟩
    have hofList : ofList bs = s := by
      refine ext_get? fun x => Option.ext fun v => ?_
      rw [get?_ofList_eq_some_iff, hs]
    exact (haccept s).2 ⟨bs, hbs, hofList⟩
  · rintro ⟨front, after, s, hafter, htext, hs⟩
    obtain ⟨bs, hbs, -⟩ := (haccept s).1 hs
    rw [htext] at hbs
    exact not_trailing_comma hafter hbs

end ImpLang.Store
