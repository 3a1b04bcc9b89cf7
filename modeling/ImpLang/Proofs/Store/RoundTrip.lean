import Mathlib
import ImpLang.Proofs.Store.Language

namespace ImpLang.Store

def bindingChars (b : String × Int64) : List Char :=
  b.1.toList ++ ':' :: ' ' :: (Number.render b.2).toList

theorem toList_renderBinding (b : String × Int64) :
    (renderBinding b).toList = bindingChars b := by
  simp [renderBinding, bindingChars]

def moreChars (bs : List (String × Int64)) : List Char :=
  bs.flatMap fun b => ',' :: ' ' :: bindingChars b

theorem intercalate_bindingChars (b : String × Int64) (bs : List (String × Int64)) :
    [',', ' '].intercalate ((b :: bs).map bindingChars) = bindingChars b ++ moreChars bs := by
  induction bs generalizing b with
  | nil => simp [moreChars]
  | cons b' bs ih =>
    rw [List.map_cons, List.map_cons, List.intercalate_cons_cons, ← List.map_cons, ih]
    simp [moreChars]

theorem toList_render (s : Store Int64) : s.render.toList =
    match s.bindings with
    | [] => ['\x7b', '\x7d']
    | b :: bs => '\x7b' :: ' ' :: (bindingChars b ++ moreChars bs ++ [' ', '\x7d']) := by
  unfold render isEmpty
  cases s.bindings with
  | nil => rfl
  | cons b bs =>
    have hchars : ((b :: bs).map renderBinding).map String.toList = (b :: bs).map bindingChars := by
      simp [toList_renderBinding]
    have htext : (", ".intercalate ((b :: bs).map renderBinding)).toList =
        bindingChars b ++ moreChars bs := by
      rw [String.toList_intercalate, hchars]
      exact intercalate_bindingChars b bs
    rw [if_neg (by simp), String.toList_append, String.toList_append, htext]
    simp

open Written

theorem Written.value_render (v : Int64) : Value (Number.render v).toList v := by
  change Value v.toInt.repr.toList v
  have hdigits (n : Int) : ∀ d ∈ Nat.toDigits 10 n.toNat, d.isDigit :=
    Literal.isDigit_toDigits n.toNat
  by_cases h : 0 ≤ v.toInt
  · rw [Literal.toList_repr_of_nonneg h]
    refine .digits Nat.toDigits_ne_nil (hdigits _) ?_
    rw [Nat.ofDigitChars_ten_toDigits, Int.toNat_of_nonneg h]
  · have hneg : 0 ≤ -v.toInt := by omega
    rw [Literal.toList_repr_of_neg h]
    refine .minus Nat.toDigits_ne_nil (hdigits _) ?_
    rw [Nat.ofDigitChars_ten_toDigits, Int.toNat_of_nonneg hneg, Int.neg_neg]

theorem Written.blanks_space : Blanks [' '] := by simp [Blanks, Lexer.isBlank]

theorem Written.binding_bindingChars {b : String × Int64} (hb : Lexer.IsWord b.1.toList) :
    Binding (bindingChars b) b :=
  .intro hb (List.forall_mem_nil _) blanks_space (value_render b.2)

theorem Written.more_moreChars {bs : List (String × Int64)}
    (h : ∀ b ∈ bs, Lexer.IsWord b.1.toList) : More (moreChars bs) bs := by
  induction bs with
  | nil => exact .nil
  | cons b bs ih =>
    obtain ⟨hb, hbs⟩ := List.forall_mem_cons.1 h
    have htext : moreChars (b :: bs) = ',' :: ' ' :: (bindingChars b ++ moreChars bs) := by
      simp [moreChars]
    rw [htext]
    exact .cons (List.forall_mem_nil _) blanks_space (binding_bindingChars hb) (ih hbs)

theorem HasWords.of_mem {s : Store Int64} (h : s.HasWords) :
    ∀ b ∈ s.bindings, Lexer.IsWord b.1.toList :=
  fun _ hb => h _ (List.mem_map_of_mem hb)

theorem written_render {s : Store Int64} (h : s.HasWords) :
    Written s.render.toList s.bindings := by
  have hw := h.of_mem
  rw [toList_render]
  cases hs : s.bindings with
  | nil => exact .intro (List.forall_mem_nil _) .none (List.forall_mem_nil _)
  | cons b bs =>
    rw [hs] at hw
    obtain ⟨hb, hbs⟩ := List.forall_mem_cons.1 hw
    have hbindings : Bindings (bindingChars b ++ moreChars bs) (b :: bs) :=
      .some (binding_bindingChars hb) (more_moreChars hbs)
    exact .intro blanks_space hbindings blanks_space

theorem read_render {s : Store Int64} (h : s.HasWords) : read s.render = .ok s :=
  read_eq_ok_iff_braces.2
    ⟨s.bindings, Reader.braces_eq_ok_iff.2 (written_render h), s.ofList_bindings⟩

end ImpLang.Store
