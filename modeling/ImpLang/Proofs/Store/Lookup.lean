import Mathlib
import ImpLang.Proofs.Store.Names

namespace ImpLang.Store

variable {T : Type} {s u : Store T} {x y : String} {v : T}

theorem get?_eq_some_iff : s.get? x = some v ↔ (x, v) ∈ s.bindings := by
  obtain ⟨l, hl⟩ := s
  simp only [get?]
  induction l with
  | nil => simp
  | cons b l ih =>
    obtain ⟨hb, hrest⟩ := List.pairwise_cons.1 hl
    by_cases hx : b.1 = x
    · -- The names behind the first one are larger, so the variable is not bound once more.
      have hv : (x, v) ∉ l := by
        intro hv
        have hlt := hb _ hv
        rw [hx] at hlt
        exact String.lt_irrefl x hlt
      simp [hx, hv, Prod.ext_iff, eq_comm]
    · have hne : (x, v) ≠ b := fun h => hx (congrArg Prod.fst h).symm
      simpa [hx, hne] using ih hrest

theorem mem_names_iff : x ∈ s.names ↔ s.get? x ≠ none := by
  rw [Option.ne_none_iff_exists']
  simp [names, get?_eq_some_iff]

theorem mem_names_insert_iff : y ∈ (s.insert x v).names ↔ y ∈ s.names ∨ y = x := by
  rw [mem_names_iff, mem_names_iff, get?_insert]
  split <;> simp [*]

theorem ofList_append_singleton (l : List (String × T)) (b : String × T) :
    ofList (l ++ [b]) = (ofList l).insert b.1 b.2 :=
  List.foldl_append

theorem mem_names_ofList_iff {l : List (String × T)} :
    x ∈ (ofList l).names ↔ x ∈ l.map Prod.fst := by
  induction l using List.reverseRecOn with
  | nil => rfl
  | append_singleton l b ih =>
    rw [ofList_append_singleton, mem_names_insert_iff, ih]
    simp

theorem nodup_names (s : Store T) : s.names.Nodup := by
  apply List.pairwise_map.2
  exact s.sorted.imp fun h => ne_of_lt h

theorem ext_get? (h : ∀ x, s.get? x = u.get? x) : s = u := by
  have hirrefl : Std.Irrefl fun a b : String × T => a.1 < b.1 := ⟨fun a => String.lt_irrefl a.1⟩
  have hantisymm : Std.Antisymm fun a b : String × T => a.1 < b.1 :=
    ⟨fun a b hab hba => absurd (String.lt_trans hab hba) (String.lt_irrefl a.1)⟩
  refine ext (s.sorted.eq_of_mem_iff u.sorted fun b => ?_)
  rw [← get?_eq_some_iff, ← get?_eq_some_iff, h]

/-- The list binds the variable to the value, and not again behind that. -/
def BindsLast (l : List (String × T)) (x : String) (v : T) : Prop :=
  ∃ front back, l = front ++ (x, v) :: back ∧ x ∉ back.map Prod.fst

theorem not_bindsLast_nil : ¬ BindsLast [] x v := by
  rintro ⟨front, back, h, -⟩
  exact List.append_ne_nil_of_right_ne_nil _ (List.cons_ne_nil _ _) h.symm

theorem bindsLast_append_singleton {l : List (String × T)} {b : String × T} :
    BindsLast (l ++ [b]) x v ↔ b = (x, v) ∨ b.1 ≠ x ∧ BindsLast l x v := by
  constructor
  · rintro ⟨front, back, h, hx⟩
    obtain rfl | ⟨back, c, rfl⟩ := List.eq_nil_or_concat' back
    · exact .inl (List.singleton_inj.1 (List.append_inj' h rfl).2)
    · rw [← List.cons_append, ← List.append_assoc] at h
      obtain ⟨rfl, hc⟩ := List.append_inj' h rfl
      cases hc
      simp only [List.map_append, List.mem_append, not_or] at hx
      exact .inr ⟨fun hb => hx.2 (by simp [hb]), front, back, rfl, hx.1⟩
  · rintro (rfl | ⟨hb, front, back, rfl, hx⟩)
    · exact ⟨l, [], rfl, List.not_mem_nil⟩
    · refine ⟨front, back ++ [b], by simp, ?_⟩
      simpa [hx] using Ne.symm hb

theorem bindsLast_iff_mem {l : List (String × T)} (hl : (l.map Prod.fst).Nodup) :
    BindsLast l x v ↔ (x, v) ∈ l := by
  constructor
  · rintro ⟨front, back, rfl, -⟩
    simp
  · intro hv
    obtain ⟨front, back, rfl⟩ := List.append_of_mem hv
    rw [List.map_append, List.map_cons] at hl
    have hback := (List.nodup_append.1 hl).2.1
    exact ⟨front, back, rfl, (List.nodup_cons.1 hback).1⟩

theorem get?_ofList_eq_some_iff {l : List (String × T)} :
    (ofList l).get? x = some v ↔ BindsLast l x v := by
  induction l using List.reverseRecOn with
  | nil => exact ⟨fun h => (Option.some_ne_none v h.symm).elim, fun h => absurd h not_bindsLast_nil⟩
  | append_singleton l b ih =>
    rw [bindsLast_append_singleton, ofList_append_singleton, get?_insert, ← ih]
    by_cases hb : x = b.1
    · simp [hb, Prod.ext_iff]
    · have hne : b ≠ (x, v) := fun h => hb (congrArg Prod.fst h).symm
      simp [hb, hne, Ne.symm hb]

end ImpLang.Store
