import Mathlib
import ImpLang.Proofs.Store.Names

namespace ImpLang.Store

open Lexer

namespace Written

def Blanks (cs : List Char) : Prop := ∀ c ∈ cs, isBlank c

inductive Value : List Char → Int64 → Prop where
  | digits {ds v} (hne : ds ≠ []) (hds : ∀ d ∈ ds, d.isDigit)
      (hv : v.toInt = (Nat.ofDigitChars 10 ds 0 : Int)) : Value ds v
  | minus {ds v} (hne : ds ≠ []) (hds : ∀ d ∈ ds, d.isDigit)
      (hv : v.toInt = -(Nat.ofDigitChars 10 ds 0 : Int)) : Value ('-' :: ds) v

inductive Binding : List Char → String × Int64 → Prop where
  | intro {x before after text v} (hx : IsWord x.toList) (hbefore : Blanks before)
      (hafter : Blanks after) (hv : Value text v) :
      Binding (x.toList ++ (before ++ ':' :: (after ++ text))) (x, v)

inductive More : List Char → List (String × Int64) → Prop where
  | nil : More [] []
  | cons {before after text more b bs} (hbefore : Blanks before) (hafter : Blanks after)
      (hb : Binding text b) (hmore : More more bs) :
      More (before ++ ',' :: (after ++ (text ++ more))) (b :: bs)

inductive Bindings : List Char → List (String × Int64) → Prop where
  | none : Bindings [] []
  | some {text more b bs} (hb : Binding text b) (hmore : More more bs) :
      Bindings (text ++ more) (b :: bs)

end Written

open Written

/-- The text of a store, with the bindings that it lists: pairs of a word and an integer of 64 bits,
with blanks around all marks and no comma behind the last of them. -/
inductive Written : List Char → List (String × Int64) → Prop where
  | intro {before text after bs} (hbefore : Blanks before) (hbs : Bindings text bs)
      (hafter : Blanks after) :
      Written ('\x7b' :: (before ++ (text ++ (after ++ ['\x7d'])))) bs

namespace Written

theorem Binding.isWord {text : List Char} {b : String × Int64} (h : Binding text b) :
    IsWord b.1.toList := by
  cases h with
  | intro hx => exact hx

theorem More.isWord {text : List Char} {bs : List (String × Int64)} (h : More text bs) :
    ∀ b ∈ bs, IsWord b.1.toList := by
  induction h with
  | nil => exact List.forall_mem_nil _
  | cons _ _ hb _ ih => exact List.forall_mem_cons.2 ⟨hb.isWord, ih⟩

theorem isWord {cs : List Char} {bs : List (String × Int64)} (h : Written cs bs) :
    ∀ b ∈ bs, IsWord b.1.toList := by
  cases h with
  | intro _ hbs _ =>
    cases hbs with
    | none => exact List.forall_mem_nil _
    | some hb hmore => exact List.forall_mem_cons.2 ⟨hb.isWord, hmore.isWord⟩

def EndsInDigit (text : List Char) : Prop := ∃ front d, text = front ++ [d] ∧ d.isDigit

theorem EndsInDigit.append {text : List Char} (front : List Char) (h : EndsInDigit text) :
    EndsInDigit (front ++ text) := by
  obtain ⟨front', d, rfl, hd⟩ := h
  exact ⟨front ++ front', d, (List.append_assoc ..).symm, hd⟩

theorem Value.endsInDigit {text : List Char} {v : Int64} (h : Value text v) : EndsInDigit text := by
  have hdigits : ∀ ds : List Char, ds ≠ [] → (∀ d ∈ ds, d.isDigit) → EndsInDigit ds := by
    intro ds hne hds
    exact ⟨_, _, (List.dropLast_append_getLast hne).symm, hds _ (List.getLast_mem hne)⟩
  cases h with
  | digits hne hds => exact hdigits _ hne hds
  | minus hne hds => exact (hdigits _ hne hds).append ['-']

theorem Binding.endsInDigit {text : List Char} {b : String × Int64} (h : Binding text b) :
    EndsInDigit text := by
  cases h with
  | @intro x before after text v hx hbefore hafter hv =>
    have h := hv.endsInDigit.append (x.toList ++ before ++ ':' :: after)
    simpa using h

theorem More.endsInDigit {front text : List Char} {bs : List (String × Int64)} (h : More text bs)
    (hfront : EndsInDigit front) : EndsInDigit (front ++ text) := by
  induction h generalizing front with
  | nil => rwa [List.append_nil]
  | @cons before after text more b bs _ _ hb _ ih =>
    have h := ih (hb.endsInDigit.append (front ++ before ++ ',' :: after))
    simpa using h

theorem exists_last {cs : List Char} {bs : List (String × Int64)} (h : Written cs bs) :
    ∃ front d after, cs = front ++ d :: (after ++ ['\x7d']) ∧ Blanks after ∧
      isBlank d = false ∧ d ≠ ',' := by
  obtain @⟨before, text, after, bs, hbefore, hbs, hafter⟩ := h
  cases hbs with
  | none =>
    exact ⟨[], '\x7b', before ++ after, by simp, List.forall_mem_append.2 ⟨hbefore, hafter⟩,
      by decide, by decide⟩
  | some hb hmore =>
    obtain ⟨front, d, htext, hd⟩ := hmore.endsInDigit hb.endsInDigit
    refine ⟨'\x7b' :: (before ++ front), d, after, by simp [htext], hafter,
      not_blank_of_isWordChar (isWordChar_of_isDigit hd), ?_⟩
    rintro rfl
    exact absurd hd (by decide)

theorem last_unique {front front' after after' : List Char} {c d : Char}
    (h : front ++ c :: after = front' ++ d :: after') (hafter : Blanks after)
    (hafter' : Blanks after') (hc : isBlank c = false) (hd : isBlank d = false) : c = d := by
  -- If the parts did not agree, one of the two characters would be among the blanks.
  obtain ⟨cs, -, h⟩ | ⟨cs, -, h⟩ := List.append_eq_append_iff.1 h
  · cases cs with
    | nil => exact (List.cons.inj h).1
    | cons e cs =>
      obtain ⟨-, rfl⟩ := List.cons.inj h
      have hblank := hafter d (by simp)
      rw [hd] at hblank
      cases hblank
  · cases cs with
    | nil => exact (List.cons.inj h).1.symm
    | cons e cs =>
      obtain ⟨-, rfl⟩ := List.cons.inj h
      have hblank := hafter' c (by simp)
      rw [hc] at hblank
      cases hblank

theorem not_trailing_comma {front after : List Char} {bs : List (String × Int64)}
    (hafter : Blanks after) : ¬ Written (front ++ ',' :: (after ++ ['\x7d'])) bs := by
  intro h
  obtain ⟨front', d, after', heq, hafter', hd, hne⟩ := h.exists_last
  have hends : front ++ ',' :: after = front' ++ d :: after' := by
    have heq' : (front ++ ',' :: after) ++ ['\x7d'] = (front' ++ d :: after') ++ ['\x7d'] := by
      simpa using heq
    exact List.append_cancel_right heq'
  exact hne (last_unique hends hafter hafter' (by decide) hd).symm

end Written

end ImpLang.Store
