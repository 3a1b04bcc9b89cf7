import ImpLang.Number.Literal

namespace ImpLang

class Number (T : Type) where
  toInt : T → Int
  /-- The number of that value, if it is in range. -/
  ofInt? : Int → Option T
  embed : Int64 → T
  literal? : String → Option T
  ofInt?_eq_some_iff {n : Int} {a : T} : ofInt? n = some a ↔ toInt a = n
  toInt_embed (a : Int64) : toInt (embed a) = a.toInt
  literal?_digits {cs : List Char} (hne : cs ≠ []) (hcs : ∀ c ∈ cs, c.isDigit) :
    literal? (String.ofList cs) = ofInt? (Nat.ofDigitChars 10 cs 0)

namespace Number

variable {T : Type} [Number T]

def zero : T := embed 0

def render (a : T) : String := (toInt a).repr

@[simp] theorem ofInt?_toInt (a : T) : ofInt? (toInt a) = some a := ofInt?_eq_some_iff.2 rfl

@[simp] theorem toInt_zero : toInt (zero : T) = 0 := toInt_embed 0

theorem toInt_inj {a b : T} (h : toInt a = toInt b) : a = b := by
  have ha := ofInt?_toInt a
  rw [h, ofInt?_toInt] at ha
  exact (Option.some.inj ha).symm

def int64? (n : Int) : Option Int64 :=
  if Int64.minValue.toInt ≤ n ∧ n ≤ Int64.maxValue.toInt then some (Int64.ofInt n) else none

end Number

instance : Number Int64 where
  toInt := Int64.toInt
  ofInt? := Number.int64?
  embed := id
  literal? s := (Literal.signed? s.toList).bind Number.int64?
  ofInt?_eq_some_iff {n a} := by
    unfold Number.int64?
    constructor
    · intro h
      split at h
      · rename_i hn
        cases h
        exact Int64.toInt_ofInt_of_le hn.1 (Int.lt_of_le_sub_one hn.2)
      · cases h
    · rintro rfl
      rw [if_pos ⟨Int64.minValue_le_toInt a, Int64.toInt_le a⟩, Int64.ofInt_toInt]
  toInt_embed _ := rfl
  literal?_digits hne hcs := by
    rw [String.toList_ofList, Literal.signed?_of_digits hne hcs, Option.bind_some]

instance : Number Int where
  toInt := id
  ofInt? := some
  embed := Int64.toInt
  literal? s := Literal.grouped? s.toList
  ofInt?_eq_some_iff := by simp [eq_comm]
  toInt_embed _ := rfl
  literal?_digits hne hcs := by
    rw [String.toList_ofList, Literal.grouped?_of_digits hne hcs]

end ImpLang
