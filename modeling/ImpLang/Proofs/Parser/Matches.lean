import ImpLang.Proofs.Parser.Language
import ImpLang.Parser.Precedence

namespace ImpLang.Parser

variable {ι : Type} {τ : ι → Type} {α β ω : Type}

/-- Where a run of the parser ends, it is a match up to a position that passes the test. -/
def Matches (rules : Rules τ) (ts : Array Token) (p : Parser τ α) (pos : Nat) (S : Nat → Prop) :
    Prop :=
  ∀ depth r, Replies rules ts depth p pos r → ∃ stop a, r = some (stop, a) ∧ S stop

def Refuses (rules : Rules τ) (ts : Array Token) (p : Parser τ α) (pos : Nat) : Prop :=
  ∀ depth r, Replies rules ts depth p pos r → r = none

variable {rules : Rules τ} {ts : Array Token} {pos next : Nat} {S : Nat → Prop}

namespace Matches

theorem mono {p : Parser τ α} {S' : Nat → Prop} (h : Matches rules ts p pos S)
    (hs : ∀ n, S n → S' n) : Matches rules ts p pos S' := by
  intro depth r hr
  obtain ⟨stop, a, rfl, hstop⟩ := h depth r hr
  exact ⟨stop, a, rfl, hs stop hstop⟩

theorem token {text : String} {tag : Tag} {rest : List Token}
    (h : ts.toList.drop pos = ⟨text, tag⟩ :: rest) :
    Matches rules ts (.token text tag) pos (· = pos + 1) := by
  intro depth r hr
  rw [replies_token, tokenAt_of_drop h, if_pos (beq_self_eq_true _)] at hr
  exact ⟨pos + 1, text, hr.symm, rfl⟩

theorem tagged {text : String} {tag : Tag} {rest : List Token}
    (h : ts.toList.drop pos = ⟨text, tag⟩ :: rest) :
    Matches rules ts (.tagged tag) pos (· = pos + 1) := by
  intro depth r hr
  rw [replies_tagged, tokenAt_of_drop h, if_pos (beq_self_eq_true _)] at hr
  exact ⟨pos + 1, text, hr.symm, rfl⟩

theorem filterMap_tagged {f : String → Option β} {b : β} {text : String} {tag : Tag}
    {rest : List Token} (h : ts.toList.drop pos = ⟨text, tag⟩ :: rest) (hf : f text = some b) :
    Matches rules ts (.filterMap f (.tagged tag)) pos (· = pos + 1) := by
  intro depth r hr
  obtain ⟨s, hs, rfl⟩ := replies_filterMap.1 hr
  rw [replies_tagged, tokenAt_of_drop h, if_pos (beq_self_eq_true _)] at hs
  subst hs
  exact ⟨pos + 1, b, by simp [hf], rfl⟩

theorem seq {p : Parser τ α} {q : Parser τ β} (hp : Matches rules ts p pos (· = next))
    (hq : Matches rules ts q next S) : Matches rules ts (.seq p q) pos S := by
  intro depth r hr
  obtain ⟨h, rfl⟩ | ⟨next', a, s, h, h', rfl⟩ := replies_seq.1 hr
  · obtain ⟨_, _, h, -⟩ := hp depth _ h
    cases h
  · obtain ⟨_, _, h, rfl⟩ := hp depth _ h
    cases h
    obtain ⟨stop, b, rfl, hstop⟩ := hq depth _ h'
    exact ⟨stop, (a, b), rfl, hstop⟩

theorem alt_left {p q : Parser τ α} (hp : Matches rules ts p pos S) :
    Matches rules ts (.alt p q) pos S := by
  intro depth r hr
  obtain ⟨h, -⟩ | ⟨found, h, rfl⟩ := replies_alt.1 hr
  · obtain ⟨_, _, h, -⟩ := hp depth _ h
    cases h
  · exact hp depth _ h

theorem alt_right {p q : Parser τ α} (hp : Refuses rules ts p pos)
    (hq : Matches rules ts q pos S) : Matches rules ts (.alt p q) pos S := by
  intro depth r hr
  obtain ⟨-, h⟩ | ⟨found, h, -⟩ := replies_alt.1 hr
  · exact hq depth _ h
  · cases hp depth _ h

theorem opt {p : Parser τ α} (hp : Matches rules ts p pos S) : Matches rules ts (.opt p) pos S := by
  intro depth r hr
  obtain ⟨h, -⟩ | ⟨stop, a, h, rfl⟩ := replies_opt.1 hr
  · obtain ⟨_, _, h, -⟩ := hp depth _ h
    cases h
  · obtain ⟨_, _, h, hstop⟩ := hp depth _ h
    cases h
    exact ⟨stop, some a, rfl, hstop⟩

theorem map {f : α → β} {p : Parser τ α} (hp : Matches rules ts p pos S) :
    Matches rules ts (.map f p) pos S := by
  intro depth r hr
  obtain ⟨s, h, rfl⟩ := replies_map.1 hr
  obtain ⟨stop, a, rfl, hstop⟩ := hp depth _ h
  exact ⟨stop, f a, rfl, hstop⟩

theorem rule {i : ι} (hp : Matches rules ts (rules i) pos S) :
    Matches rules ts (.rule i) pos S := by
  intro depth r hr
  obtain ⟨d, rfl, h⟩ := replies_rule.1 hr
  exact hp d r h

end Matches

namespace Refuses

theorem token {text : String} {tag : Tag} {t : Token} {rest : List Token}
    (h : ts.toList.drop pos = t :: rest) (hne : t ≠ ⟨text, tag⟩) :
    Refuses rules ts (.token text tag) pos := by
  intro depth r hr
  rw [replies_token, tokenAt_of_drop h, if_neg (by simpa using hne)] at hr
  exact hr.symm

theorem tagged {tag : Tag} {t : Token} {rest : List Token}
    (h : ts.toList.drop pos = t :: rest) (hne : t.tag ≠ tag) :
    Refuses rules ts (.tagged tag) pos := by
  intro depth r hr
  rw [replies_tagged, tokenAt_of_drop h, if_neg (by simpa using hne)] at hr
  exact hr.symm

theorem seq {p : Parser τ α} (q : Parser τ β) (hp : Refuses rules ts p pos) :
    Refuses rules ts (.seq p q) pos := by
  intro depth r hr
  obtain ⟨-, rfl⟩ | ⟨next, a, s, h, -, -⟩ := replies_seq.1 hr
  · rfl
  · cases hp depth _ h

theorem alt {p q : Parser τ α} (hp : Refuses rules ts p pos) (hq : Refuses rules ts q pos) :
    Refuses rules ts (.alt p q) pos := by
  intro depth r hr
  obtain ⟨-, h⟩ | ⟨found, h, -⟩ := replies_alt.1 hr
  · exact hq depth _ h
  · cases hp depth _ h

theorem opt {p : Parser τ α} (hp : Refuses rules ts p pos) :
    Matches rules ts (.opt p) pos (· = pos) := by
  intro depth r hr
  obtain ⟨-, rfl⟩ | ⟨stop, a, h, -⟩ := replies_opt.1 hr
  · exact ⟨pos, none, rfl, rfl⟩
  · cases hp depth _ h

theorem map {f : α → β} {p : Parser τ α} (hp : Refuses rules ts p pos) :
    Refuses rules ts (.map f p) pos := by
  intro depth r hr
  obtain ⟨s, h, rfl⟩ := replies_map.1 hr
  rw [hp depth s h]
  rfl

theorem filterMap {f : α → Option β} {p : Parser τ α} (hp : Refuses rules ts p pos) :
    Refuses rules ts (.filterMap f p) pos := by
  intro depth r hr
  obtain ⟨s, h, rfl⟩ := replies_filterMap.1 hr
  rw [hp depth s h]
  rfl

theorem of_language {R : (i : ι) → List Token → τ i → Prop}
    (hR : ∀ i w v, Language R (rules i) w v → R i w v) {p : Parser τ α}
    (h : ∀ stop w v, Spans ts pos stop w → ¬ Language R p w v) : Refuses rules ts p pos := by
  intro depth r hr
  match r with
  | none => rfl
  | some (stop, v) =>
    obtain ⟨w, hw, hv⟩ := hr.spans hR
    exact absurd hv (h stop w v hw)

end Refuses

namespace Matches

theorem choice {first : Parser τ α} {others : List (Parser τ α)}
    (h : ∀ p ∈ first :: others, Refuses rules ts p pos ∨ Matches rules ts p pos S)
    (hm : ∃ p ∈ first :: others, Matches rules ts p pos S) :
    Matches rules ts (choice first others) pos S := by
  induction others generalizing first with
  | nil =>
    obtain ⟨p, hp, hm⟩ := hm
    rwa [List.mem_singleton.1 hp] at hm
  | cons q qs ih =>
    have hfirst := h first List.mem_cons_self
    have hq := h q (List.mem_cons_of_mem _ List.mem_cons_self)
    refine @ih (.alt first q) ?_ ?_
    · intro p hp
      obtain rfl | hp := List.mem_cons.1 hp
      · obtain hr | hm := hfirst
        · exact hq.imp (.alt hr) (.alt_right hr)
        · exact .inr (.alt_left hm)
      · exact h p (List.mem_cons_of_mem _ (List.mem_cons_of_mem _ hp))
    · obtain ⟨p, hp, hm⟩ := hm
      obtain rfl | hp := List.mem_cons.1 hp
      · exact ⟨_, List.mem_cons_self, .alt_left hm⟩
      · obtain rfl | hp := List.mem_cons.1 hp
        · obtain hr | hm' := hfirst
          · exact ⟨_, List.mem_cons_self, .alt_right hr hm⟩
          · exact ⟨_, List.mem_cons_self, .alt_left hm'⟩
        · exact ⟨p, List.mem_cons_of_mem _ hp, hm⟩

theorem oneOf {symbol : ω → String} {o v : ω} {os : List ω} {rest : List Token}
    (h : ts.toList.drop pos = .reserved (symbol v) :: rest) (hv : v ∈ o :: os) :
    Matches rules ts (oneOf symbol o os) pos (· = pos + 1) := by
  refine choice ?_ ?_
  · intro p hp
    rw [← List.map_cons] at hp
    obtain ⟨u, -, rfl⟩ := List.mem_map.1 hp
    by_cases hu : symbol v = symbol u
    · rw [hu] at h
      exact .inr (.map (.token h))
    · refine .inl (.map (.token h ?_))
      intro ht
      exact hu (congrArg Token.text ht)
  · rw [← List.map_cons]
    exact ⟨_, List.mem_map_of_mem hv, .map (.token h)⟩

end Matches

end ImpLang.Parser
