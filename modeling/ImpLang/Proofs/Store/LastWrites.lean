import Mathlib
import ImpLang.Proofs.Store.Lookup

namespace ImpLang.Store

variable {T : Type} {s u : Store T} {x : String} {v : T} {l l' : List (String × T)}

/-- The store of a list of bindings, after assignments one after another. -/
def written (pairs assigns : List (String × T)) : Store T :=
  assigns.foldl (fun s (x, v) => s.insert x v) (ofList pairs)

theorem written_eq_ofList (pairs assigns : List (String × T)) :
    written pairs assigns = ofList (pairs ++ assigns) :=
  List.foldl_append.symm

def codePoints (x : String) : List Nat := x.toList.map Char.toNat

theorem codePoints_lt_iff {x y : String} : codePoints x < codePoints y ↔ x < y := by
  have mono {x y : String} (h : x < y) : codePoints x < codePoints y :=
    List.map_lt (fun _ _ hc => hc) (String.lt_iff_toList_lt.1 h)
  constructor
  · intro h
    by_contra hxy
    obtain rfl | hyx := eq_or_lt_of_not_gt hxy
    · exact lt_irrefl _ h
    · exact lt_asymm h (mono hyx)
  · exact mono

theorem get?_ofList_eq_none_iff : (ofList l).get? x = none ↔ x ∉ l.map Prod.fst := by
  rw [← mem_names_ofList_iff, mem_names_iff, not_not]

theorem size_eq_card (s : Store T) : s.size = s.names.toFinset.card := by
  rw [List.toFinset_card_of_nodup s.nodup_names, names, List.length_map]
  rfl

theorem size_ofList (l : List (String × T)) :
    (ofList l).size = (l.map Prod.fst).toFinset.card := by
  rw [size_eq_card]
  congr 1
  ext x
  rw [List.mem_toFinset, List.mem_toFinset, mem_names_ofList_iff]

/-- In both lists, the last writes to each name are the same. -/
def SameLastWrites (l l' : List (String × T)) : Prop := ∀ x v, BindsLast l x v ↔ BindsLast l' x v

theorem ofList_eq_iff : ofList l = ofList l' ↔ SameLastWrites l l' := by
  simp only [SameLastWrites, ← get?_ofList_eq_some_iff]
  constructor
  · intro h x v
    rw [h]
  · intro h
    exact ext_get? fun x => Option.ext fun v => h x v

def sortByName (l : List (String × T)) : List (String × T) :=
  l.mergeSort fun a b => decide (a.1 ≤ b.1)

theorem sortByName_eq_toList (h : l.Perm s.toList) : sortByName l = s.toList := by
  have htotal : Std.Total fun a b : String × T => a.1 ≤ b.1 := ⟨fun a b => le_total a.1 b.1⟩
  have htrans : IsTrans (String × T) fun a b => a.1 ≤ b.1 := ⟨fun a b c => le_trans⟩
  have hperm : (sortByName l).Perm s.toList := (List.mergeSort_perm l _).trans h
  refine hperm.eq_of_pairwise ?_ (List.pairwise_mergeSort' _ l) (s.sorted.imp le_of_lt)
  -- Two bindings of one name are the same one.
  intro a b ha hb hab hba
  have hname : a.1 = b.1 := le_antisymm hab hba
  have hva : s.get? a.1 = some a.2 := get?_eq_some_iff.2 (hperm.mem_iff.1 ha)
  have hvb : s.get? b.1 = some b.2 := get?_eq_some_iff.2 hb
  rw [hname, hvb] at hva
  exact Prod.ext hname (Option.some.inj hva).symm

/-- The store is the map of the last writes in the list. -/
structure IsLastWrites (s : Store T) (writes : List (String × T)) : Prop where
  get?_eq_some : ∀ x v, s.get? x = some v ↔ BindsLast writes x v
  get?_eq_none : ∀ x, s.get? x = none ↔ x ∉ writes.map Prod.fst
  size_eq : s.size = (writes.map Prod.fst).toFinset.card
  mem_toList : ∀ x v, (x, v) ∈ s.toList ↔ BindsLast writes x v
  increasing : s.toList.Pairwise fun a b => codePoints a.1 < codePoints b.1
  /-- To list the last writes in any order and to sort them gives the same list. -/
  sortByName_eq : ∀ entries : List (String × T), entries.Nodup →
    (∀ x v, (x, v) ∈ entries ↔ BindsLast writes x v) → sortByName entries = s.toList

theorem mem_toList_ofList_iff : (x, v) ∈ (ofList l).toList ↔ BindsLast l x v := by
  rw [← get?_ofList_eq_some_iff, get?_eq_some_iff, toList]

theorem nodup_toList (s : Store T) : s.toList.Nodup := .of_map Prod.fst s.nodup_names

theorem ofList_isLastWrites (l : List (String × T)) : IsLastWrites (ofList l) l where
  get?_eq_some _ _ := get?_ofList_eq_some_iff
  get?_eq_none _ := get?_ofList_eq_none_iff
  size_eq := size_ofList l
  mem_toList _ _ := mem_toList_ofList_iff
  increasing := (ofList l).sorted.imp codePoints_lt_iff.2
  sortByName_eq entries hnodup hmem := by
    apply sortByName_eq_toList
    rw [List.perm_ext_iff_of_nodup hnodup (nodup_toList _)]
    intro b
    rw [hmem, mem_toList_ofList_iff]

/-- A store is the map of the last writes, whatever the writes and their order: two stores are equal
where the last writes are, and so are then the bindings that they list and how they are shown. -/
theorem written_lastWrites [Number T] (pairs assigns pairs' assigns' : List (String × T)) :
    IsLastWrites (written pairs assigns) (pairs ++ assigns) ∧
    (written pairs assigns = written pairs' assigns' ↔
      SameLastWrites (pairs ++ assigns) (pairs' ++ assigns')) ∧
    ((written pairs assigns).toList = (written pairs' assigns').toList ↔
      SameLastWrites (pairs ++ assigns) (pairs' ++ assigns')) ∧
    (SameLastWrites (pairs ++ assigns) (pairs' ++ assigns') →
      (written pairs assigns).render = (written pairs' assigns').render) := by
  have heq : written pairs assigns = written pairs' assigns' ↔
      SameLastWrites (pairs ++ assigns) (pairs' ++ assigns') := by
    rw [written_eq_ofList, written_eq_ofList, ofList_eq_iff]
  refine ⟨?_, heq, ?_, ?_⟩
  · rw [written_eq_ofList]
    exact ofList_isLastWrites _
  · rw [← heq]
    constructor
    · intro h
      exact ext h
    · intro h
      rw [h]
  · intro h
    rw [heq.2 h]

/-- Two ways to write the same values last, with one name written again in each of them. -/
theorem written_lastWrites_reordered :
    let pairs := [("p", 120), ("n", 5), ("n", 1)]
    let assigns := [("n", (0 : Int))]
    let pairs' := [("n", 0)]
    let assigns' := [("p", 7), ("p", (120 : Int))]
    SameLastWrites (pairs ++ assigns) (pairs' ++ assigns') ∧
      (written pairs assigns).render = (written pairs' assigns').render ∧
      (written pairs assigns).render = "\x7b n: 0, p: 120 \x7d" := by
  intro pairs assigns pairs' assigns'
  have h := written_lastWrites pairs assigns pairs' assigns'
  have hsame : SameLastWrites (pairs ++ assigns) (pairs' ++ assigns') := h.2.1.1 (by decide)
  exact ⟨hsame, h.2.2.2 hsame, by decide⟩

end ImpLang.Store
