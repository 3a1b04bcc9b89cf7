namespace ImpLang.Literal

def digits? (cs : List Char) : Option Nat :=
  if !cs.isEmpty && cs.all Char.isDigit then some (Nat.ofDigitChars 10 cs 0) else none

def signed? : List Char → Option Int
  | '-' :: cs => (digits? cs).map fun n => -(n : Int)
  | '+' :: cs => (digits? cs).map fun n => (n : Int)
  | cs => (digits? cs).map fun n => (n : Int)

/-- Digits with underscores anywhere but in front. -/
def groups? : List Char → Option Nat
  | [] => none
  | c :: cs =>
    if c.isDigit && cs.all (fun d => d.isDigit || d == '_') then
      digits? (c :: cs.filter Char.isDigit)
    else none

def plusGroups? : List Char → Option Nat
  | '+' :: cs => groups? cs
  | cs => groups? cs

def grouped? : List Char → Option Int
  | '-' :: '+' :: _ => none
  | '-' :: cs => (plusGroups? cs).map fun n => -(n : Int)
  | cs => (plusGroups? cs).map fun n => (n : Int)

theorem isDigit_toDigits (k : Nat) : ∀ c ∈ Nat.toDigits 10 k, c.isDigit :=
  fun _ hc => Nat.isDigit_of_mem_toDigits (by decide) (by decide) hc

theorem toList_repr_of_nonneg {n : Int} (h : 0 ≤ n) :
    n.repr.toList = Nat.toDigits 10 n.toNat := by
  rw [Int.repr_eq_if, if_pos h, Nat.toList_repr]

theorem toList_repr_of_neg {n : Int} (h : ¬ 0 ≤ n) :
    n.repr.toList = '-' :: Nat.toDigits 10 (-n).toNat := by
  rw [Int.repr_eq_if, if_neg h, String.toList_append, Nat.toList_repr]
  rfl

section

variable {cs : List Char}

theorem digits?_of_digits (hne : cs ≠ []) (hcs : ∀ c ∈ cs, c.isDigit) :
    digits? cs = some (Nat.ofDigitChars 10 cs 0) := by
  have h : cs.all Char.isDigit := List.all_eq_true.2 hcs
  simp [digits?, hne, h]

theorem signed?_of_digits (hne : cs ≠ []) (hcs : ∀ c ∈ cs, c.isDigit) :
    signed? cs = some (Nat.ofDigitChars 10 cs 0 : Int) := by
  have hd := digits?_of_digits hne hcs
  -- A sign is no digit, so the first two cases do not arise.
  unfold signed?
  split
  · exact absurd (hcs '-' (by simp)) (by decide)
  · exact absurd (hcs '+' (by simp)) (by decide)
  · rw [hd]
    rfl

theorem groups?_of_digits (hne : cs ≠ []) (hcs : ∀ c ∈ cs, c.isDigit) :
    groups? cs = some (Nat.ofDigitChars 10 cs 0) := by
  obtain _ | ⟨c, cs⟩ := cs
  · exact absurd rfl hne
  have hc : c.isDigit := hcs c (by simp)
  have hcs' : ∀ d ∈ cs, d.isDigit := fun d hd => hcs d (by simp [hd])
  have hall : cs.all (fun d => d.isDigit || d == '_') :=
    List.all_eq_true.2 fun d hd => by simp [hcs' d hd]
  rw [groups?, hc, hall, List.filter_eq_self.2 hcs']
  exact digits?_of_digits hne hcs

theorem plusGroups?_of_digits (hne : cs ≠ []) (hcs : ∀ c ∈ cs, c.isDigit) :
    plusGroups? cs = some (Nat.ofDigitChars 10 cs 0) := by
  unfold plusGroups?
  split
  · exact absurd (hcs '+' (by simp)) (by decide)
  · exact groups?_of_digits hne hcs

theorem grouped?_of_digits (hne : cs ≠ []) (hcs : ∀ c ∈ cs, c.isDigit) :
    grouped? cs = some (Nat.ofDigitChars 10 cs 0 : Int) := by
  unfold grouped?
  split
  · exact absurd (hcs '-' (by simp)) (by decide)
  · exact absurd (hcs '-' (by simp)) (by decide)
  · rw [plusGroups?_of_digits hne hcs]
    rfl

theorem grouped?_minus_of_digits (hne : cs ≠ []) (hcs : ∀ c ∈ cs, c.isDigit) :
    grouped? ('-' :: cs) = some (-(Nat.ofDigitChars 10 cs 0 : Int)) := by
  rw [grouped?, plusGroups?_of_digits hne hcs]
  · rfl
  · rintro ds rfl
    exact absurd (hcs '+' (by simp)) (by decide)

theorem grouped?_plus_of_digits (hne : cs ≠ []) (hcs : ∀ c ∈ cs, c.isDigit) :
    grouped? ('+' :: cs) = some (Nat.ofDigitChars 10 cs 0 : Int) := by
  have hp : plusGroups? ('+' :: cs) = some (Nat.ofDigitChars 10 cs 0) := groups?_of_digits hne hcs
  rw [grouped?, hp]
  · rfl
  all_goals simp

theorem signed?_repr (n : Int) : signed? n.repr.toList = some n := by
  by_cases h : 0 ≤ n
  · rw [toList_repr_of_nonneg h, signed?_of_digits Nat.toDigits_ne_nil (isDigit_toDigits _),
      Nat.ofDigitChars_ten_toDigits, Int.toNat_of_nonneg h]
  · have hdigits := digits?_of_digits Nat.toDigits_ne_nil (isDigit_toDigits (-n).toNat)
    have hneg : 0 ≤ -n := by omega
    rw [Nat.ofDigitChars_ten_toDigits] at hdigits
    rw [toList_repr_of_neg h, signed?, hdigits]
    change some (-((-n).toNat : Int)) = some n
    rw [Int.toNat_of_nonneg hneg, Int.neg_neg]

theorem digits?_eq_some {k : Nat} (h : digits? cs = some k) :
    cs ≠ [] ∧ (∀ c ∈ cs, c.isDigit) ∧ k = Nat.ofDigitChars 10 cs 0 := by
  unfold digits? at h
  split at h
  · rename_i hcs
    cases h
    simpa using hcs
  · cases h

theorem grouped?_of_signed? {n : Int} (h : signed? cs = some n) : grouped? cs = some n := by
  have digits {ds : List Char} {f : Int → Int} (hf : Option.map f (digits? ds) = some n) :
      ds ≠ [] ∧ (∀ c ∈ ds, c.isDigit) ∧ n = f (Nat.ofDigitChars 10 ds 0) := by
    cases hk : digits? ds with
    | none => simp [hk] at hf
    | some k =>
      obtain ⟨hne, hds, rfl⟩ := digits?_eq_some hk
      rw [hk] at hf
      exact ⟨hne, hds, (Option.some.inj hf).symm⟩
  unfold signed? at h
  split at h
  · obtain ⟨hne, hds, rfl⟩ := digits h
    exact grouped?_minus_of_digits hne hds
  · obtain ⟨hne, hds, rfl⟩ := digits h
    exact grouped?_plus_of_digits hne hds
  · obtain ⟨hne, hds, rfl⟩ := digits h
    exact grouped?_of_digits hne hds

end

end ImpLang.Literal
