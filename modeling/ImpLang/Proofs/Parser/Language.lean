import ImpLang.Proofs.Parser.Replies

namespace ImpLang.Parser

variable {α β : Type}

inductive Row (E : List Token → α → Prop) : List Token → List α → Prop where
  | nil : Row E [] []
  | cons {u w : List Token} {a : α} {as : List α} (h : E u a) (rest : Row E w as) :
    Row E (u ++ w) (a :: as)

/-- Words with separators between them, joined from the left. -/
inductive Chain (E : List Token → α → Prop) (S : List Token → (α → α → α) → Prop) :
    List Token → α → Prop where
  | one {w : List Token} {a : α} (h : E w a) : Chain E S w a
  | more {u s w : List Token} {a b : α} {join : α → α → α} (front : Chain E S u a) (hs : S s join)
    (h : E w b) : Chain E S (u ++ (s ++ w)) (join a b)

theorem Chain.ne_nil {E : List Token → α → Prop} {S : List Token → (α → α → α) → Prop}
    (hE : ∀ {w a}, E w a → w ≠ []) {w : List Token} {a : α} (h : Chain E S w a) : w ≠ [] := by
  induction h with
  | one h => exact hE h
  | more _ _ _ ih => exact List.append_ne_nil_of_left_ne_nil ih _

variable {ι : Type} {τ : ι → Type}

/-- The words of a parser, if those of the rules are the given ones. -/
def Language (R : (i : ι) → List Token → τ i → Prop) :
    {α : Type} → Parser τ α → List Token → α → Prop
  | _, token text tag, w, v => w = [⟨text, tag⟩] ∧ v = text
  | _, tagged tag, w, v => w = [⟨v, tag⟩]
  | _, seq p q, w, v => ∃ u x, w = u ++ x ∧ Language R p u v.1 ∧ Language R q x v.2
  | _, alt p q, w, v => Language R p w v ∨ Language R q w v
  | _, opt _, w, none => w = []
  | _, opt p, w, some v => Language R p w v
  | _, many p, w, v => Row (Language R p) w v
  | _, map f p, w, v => ∃ a, Language R p w a ∧ f a = v
  | _, filterMap f p, w, v => ∃ a, Language R p w a ∧ f a = some v
  | _, sepBy p s, w, v => Chain (Language R p) (Language R s) w v
  | _, whole p, w, v => Language R p w v
  | _, probe _ p, w, v => Language R p w v
  | _, delay p, w, v => Language R p w v
  | _, rule i, w, v => R i w v

/-- The tokens from `pos` to `stop` are the word. -/
def Spans (ts : Array Token) (pos stop : Nat) (w : List Token) : Prop :=
  ts.toList.drop pos = w ++ ts.toList.drop stop ∧ stop = pos + w.length

variable {ts : Array Token} {pos mid stop : Nat} {u w : List Token}

namespace Spans

theorem nil (ts : Array Token) (pos : Nat) : Spans ts pos pos [] := ⟨rfl, rfl⟩

theorem trans (hu : Spans ts pos mid u) (hw : Spans ts mid stop w) :
    Spans ts pos stop (u ++ w) := by
  obtain ⟨hu, rfl⟩ := hu
  obtain ⟨hw, rfl⟩ := hw
  refine ⟨?_, ?_⟩
  · rw [hu, hw, List.append_assoc]
  · rw [List.length_append, Nat.add_assoc]

theorem of_drop {rest : List Token} (h : ts.toList.drop pos = w ++ rest) :
    Spans ts pos (pos + w.length) w := by
  refine ⟨?_, rfl⟩
  rw [← List.drop_drop, h, List.drop_left]

theorem le (h : Spans ts pos stop w) : pos ≤ stop := by
  have := h.2
  omega

theorem stop_le (h : Spans ts pos stop w) (hw : w ≠ []) : stop ≤ ts.size := by
  obtain ⟨h, rfl⟩ := h
  have hlen := congrArg List.length h
  have := List.length_pos_iff.2 hw
  simp only [List.length_drop, List.length_append, Array.length_toList] at hlen
  omega

end Spans

theorem spans_singleton_iff {t : Token} :
    Spans ts pos stop [t] ↔ ts[pos]? = some t ∧ stop = pos + 1 := by
  rw [← Array.getElem?_toList]
  constructor
  · rintro ⟨h, rfl⟩
    have hhead := congrArg List.head? h
    rw [List.head?_drop] at hhead
    exact ⟨hhead, rfl⟩
  · rintro ⟨h, rfl⟩
    obtain ⟨hlt, rfl⟩ := List.getElem?_eq_some_iff.1 h
    exact ⟨List.drop_eq_getElem_cons hlt, rfl⟩

theorem tokenAt_of_drop {test : Token → Bool} {t : Token} {rest : List Token}
    (h : ts.toList.drop pos = t :: rest) :
    tokenAt ts pos test = if test t then some (pos + 1, t.text) else none := by
  have hspan : Spans ts pos (pos + 1) [t] := Spans.of_drop h
  have hget := (spans_singleton_iff.1 hspan).1
  rw [tokenAt, hget]

theorem tokenAt_eq_some_iff {test : Token → Bool} {text : String} :
    tokenAt ts pos test = some (stop, text) ↔
      ∃ t, Spans ts pos stop [t] ∧ test t = true ∧ t.text = text := by
  constructor
  · intro h
    rw [tokenAt] at h
    split at h
    · rename_i t hget
      split at h
      · rename_i ht
        cases h
        exact ⟨t, spans_singleton_iff.2 ⟨hget, rfl⟩, ht, rfl⟩
      · cases h
    · cases h
  · rintro ⟨t, hspan, ht, rfl⟩
    rw [tokenAt_of_drop hspan.1, if_pos ht, hspan.2]
    rfl

variable {rules : Rules τ} {R : (i : ι) → List Token → τ i → Prop} {depth : Nat}

theorem Repeats.spans {p : Parser τ α} {n : Nat} {found : Nat × List α}
    (hp : ∀ {pos stop a}, Replies rules ts depth p pos (some (stop, a)) →
      ∃ w, Spans ts pos stop w ∧ Language R p w a)
    (h : Repeats rules ts depth p n pos found) :
    ∃ w, Spans ts pos found.1 w ∧ Row (Language R p) w found.2 := by
  induction h with
  | done h => exact ⟨[], .nil .., .nil⟩
  | step h _ ih =>
    obtain ⟨u, hu, ha⟩ := hp h
    obtain ⟨w, hw, has⟩ := ih
    exact ⟨u ++ w, hu.trans hw, .cons ha has⟩

theorem Joins.spans {p : Parser τ α} {s : Parser τ (α → α → α)} {n start : Nat} {left : α}
    {found : Nat × α}
    (hp : ∀ {pos stop a}, Replies rules ts depth p pos (some (stop, a)) →
      ∃ w, Spans ts pos stop w ∧ Language R p w a)
    (hs : ∀ {pos stop a}, Replies rules ts depth s pos (some (stop, a)) →
      ∃ w, Spans ts pos stop w ∧ Language R s w a)
    (h : Joins rules ts depth p s n pos left found) (hu : Spans ts start pos u)
    (hleft : Chain (Language R p) (Language R s) u left) :
    ∃ w, Spans ts start found.1 w ∧ Chain (Language R p) (Language R s) w found.2 := by
  induction h generalizing u with
  | done => exact ⟨u, hu, hleft⟩
  | dangling => exact ⟨u, hu, hleft⟩
  | step h h' _ ih =>
    obtain ⟨x, hx, hjoin⟩ := hs h
    obtain ⟨y, hy, hright⟩ := hp h'
    exact ih (hu.trans (hx.trans hy)) (.more hleft hjoin hright)

theorem Replies.spans (hR : ∀ i w v, Language R (rules i) w v → R i w v) {p : Parser τ α} {v : α}
    (h : Replies rules ts depth p pos (some (stop, v))) :
    ∃ w, Spans ts pos stop w ∧ Language R p w v := by
  induction depth using Nat.strongRecOn generalizing α pos stop with
  | ind depth enter =>
    induction p generalizing pos stop with
    | token text tag =>
      obtain ⟨t, hspan, ht, rfl⟩ := tokenAt_eq_some_iff.1 (replies_token.1 h)
      obtain rfl := eq_of_beq ht
      exact ⟨_, hspan, rfl, rfl⟩
    | tagged tag =>
      obtain ⟨t, hspan, ht, rfl⟩ := tokenAt_eq_some_iff.1 (replies_tagged.1 h)
      obtain rfl := eq_of_beq ht
      exact ⟨_, hspan, rfl⟩
    | seq p q ihp ihq =>
      obtain ⟨-, h⟩ | ⟨next, a, r, hp, hq, h⟩ := replies_seq.1 h
      · cases h
      · match r with
        | none => cases h
        | some (stop, b) =>
          cases h
          obtain ⟨u, hu, ha⟩ := ihp hp
          obtain ⟨x, hx, hb⟩ := ihq hq
          exact ⟨_, hu.trans hx, u, x, rfl, ha, hb⟩
    | alt p q ihp ihq =>
      obtain ⟨-, hq⟩ | ⟨found, hp, h⟩ := replies_alt.1 h
      · obtain ⟨w, hw, hv⟩ := ihq hq
        exact ⟨w, hw, .inr hv⟩
      · cases h
        obtain ⟨w, hw, hv⟩ := ihp hp
        exact ⟨w, hw, .inl hv⟩
    | opt p ih =>
      obtain ⟨-, h⟩ | ⟨next, a, hp, h⟩ := replies_opt.1 h
      · cases h
        exact ⟨[], .nil .., rfl⟩
      · cases h
        exact ih hp
    | many p ih =>
      obtain ⟨found, hp, h⟩ := replies_many.1 h
      cases h
      exact hp.spans ih
    | map f p ih =>
      obtain ⟨_ | ⟨next, a⟩, hp, h⟩ := replies_map.1 h
      · cases h
      · cases h
        obtain ⟨w, hw, ha⟩ := ih hp
        exact ⟨w, hw, a, ha, rfl⟩
    | filterMap f p ih =>
      obtain ⟨_ | ⟨next, a⟩, hp, h⟩ := replies_filterMap.1 h
      · cases h
      · obtain ⟨b, hb, h⟩ := Option.map_eq_some_iff.1 h.symm
        cases h
        obtain ⟨w, hw, ha⟩ := ih hp
        exact ⟨w, hw, a, ha, hb⟩
    | sepBy p s ihp ihs =>
      obtain ⟨-, h⟩ | ⟨next, a, found, hp, hs, h⟩ := replies_sepBy.1 h
      · cases h
      · cases h
        obtain ⟨w, hw, ha⟩ := ihp hp
        exact hs.spans ihp ihs hw (.one ha)
    | whole p ih =>
      obtain ⟨r, hp, h⟩ := replies_whole.1 h
      obtain ⟨rfl, -⟩ := Option.filter_eq_some_iff.1 h.symm
      exact ih hp
    | probe name p ih => exact ih (replies_probe.1 h)
    | delay p ih =>
      obtain ⟨d, rfl, hd⟩ := replies_delay.1 h
      obtain ⟨w, hw, hv⟩ := enter d (Nat.lt_succ_self d) hd
      exact ⟨w, hw, hv⟩
    | rule i =>
      obtain ⟨d, rfl, hd⟩ := replies_rule.1 h
      obtain ⟨w, hw, hv⟩ := enter d (Nat.lt_succ_self d) hd
      exact ⟨w, hw, hR i w _ hv⟩

theorem Replies.stop_bounds {p : Parser τ α} {v : α}
    (h : Replies rules ts depth p pos (some (stop, v))) :
    pos ≤ stop ∧ (stop = pos ∨ stop ≤ ts.size) := by
  obtain ⟨w, hw, -⟩ := h.spans (R := fun _ _ _ => True) fun _ _ _ _ => trivial
  refine ⟨hw.le, ?_⟩
  by_cases hn : w = []
  · left
    rw [hw.2, hn, List.length_nil, Nat.add_zero]
  · exact .inr (hw.stop_le hn)

end ImpLang.Parser
