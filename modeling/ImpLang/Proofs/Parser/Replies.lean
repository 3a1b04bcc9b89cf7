import ImpLang.Parser.Basic

namespace ImpLang

theorem Trace.value?_bind_eq_some {α β : Type} {x : Trace α} {f : α → Trace β} {b : β} :
    (x >>= f).value? = some b ↔ ∃ a, x.value? = some a ∧ (f a).value? = some b := by
  change (Trace.bind x f).value? = some b ↔ _
  match x with
  | none => simp [Trace.bind, value?]
  | some (calls, a) =>
    simp only [Trace.bind, value?, Option.map_some, Option.some.injEq, exists_eq_left']
    cases f a <;> simp

theorem Trace.bind_eq_some_iff {α β : Type u} {x : Trace α} {f : α → Trace β}
    {calls : List Call} {b : β} :
    x >>= f = some (calls, b) ↔
      ∃ before a after, x = some (before, a) ∧ f a = some (after, b) ∧ calls = before ++ after := by
  change Trace.bind x f = some (calls, b) ↔ _
  constructor
  · intro h
    match x with
    | none => cases h
    | some (before, a) =>
      cases hf : f a with
      | none =>
        rw [Trace.bind, hf] at h
        cases h
      | some found =>
        rw [Trace.bind, hf] at h
        cases h
        exact ⟨before, a, found.1, rfl, hf, rfl⟩
  · rintro ⟨before, a, after, rfl, hf, rfl⟩
    rw [Trace.bind, hf]

/-- Where the first computation ends, so does the second one, after the same calls and with a
related value. -/
def Trace.Refines {α : Type u} {β : Type v} (P : α → β → Prop) (x : Trace α) (y : Trace β) : Prop :=
  ∀ ⦃calls a⦄, x = some (calls, a) → ∃ b, y = some (calls, b) ∧ P a b

namespace Trace.Refines

variable {α γ : Type u} {β δ : Type v} {P : α → β → Prop} {Q : γ → δ → Prop}

theorem pure {a : α} {b : β} (h : P a b) : Refines P (Pure.pure a : Trace α) (Pure.pure b) := by
  intro calls a' ha
  cases ha
  exact ⟨b, rfl, h⟩

theorem diverge (y : Trace β) : Refines P Trace.diverge y := by
  intro calls a h
  cases h

theorem bind {x : Trace α} {y : Trace β} {f : α → Trace γ} {g : β → Trace δ} (h : Refines P x y)
    (hf : ∀ a b, P a b → Refines Q (f a) (g b)) : Refines Q (x >>= f) (y >>= g) := by
  intro calls c hx
  obtain ⟨before, a, after, ha, hc, rfl⟩ := Trace.bind_eq_some_iff.1 hx
  obtain ⟨b, hb, hab⟩ := h ha
  obtain ⟨d, hd, hcd⟩ := hf a b hab hc
  exact ⟨d, Trace.bind_eq_some_iff.2 ⟨before, b, after, hb, hd, rfl⟩, hcd⟩

end Trace.Refines

namespace Parser

variable {ι : Type} {τ : ι → Type} {α β : Type} {rules : Rules τ} {ts : Array Token}

def Replies (rules : Rules τ) (ts : Array Token) (depth : Nat) (p : Parser τ α) (pos : Nat)
    (r : Reply α) : Prop :=
  (run rules ts depth p pos).value? = some r

inductive Repeats (rules : Rules τ) (ts : Array Token) (depth : Nat) (p : Parser τ α) :
    Nat → Nat → Nat × List α → Prop where
  | done {n pos : Nat} (h : Replies rules ts depth p pos none) :
    Repeats rules ts depth p (n + 1) pos (pos, [])
  | step {n pos next stop : Nat} {a : α} {as : List α}
    (h : Replies rules ts depth p pos (some (next, a)))
    (rest : Repeats rules ts depth p n next (stop, as)) :
    Repeats rules ts depth p (n + 1) pos (stop, a :: as)

inductive Joins (rules : Rules τ) (ts : Array Token) (depth : Nat) (p : Parser τ α)
    (s : Parser τ (α → α → α)) : Nat → Nat → α → Nat × α → Prop where
  | done {n pos : Nat} {left : α} (h : Replies rules ts depth s pos none) :
    Joins rules ts depth p s (n + 1) pos left (pos, left)
  | dangling {n pos after : Nat} {left : α} {join : α → α → α}
    (hs : Replies rules ts depth s pos (some (after, join)))
    (hp : Replies rules ts depth p after none) :
    Joins rules ts depth p s (n + 1) pos left (pos, left)
  | step {n pos after next : Nat} {left right : α} {join : α → α → α} {found : Nat × α}
    (hs : Replies rules ts depth s pos (some (after, join)))
    (hp : Replies rules ts depth p after (some (next, right)))
    (rest : Joins rules ts depth p s n next (join left right) found) :
    Joins rules ts depth p s (n + 1) pos left found

variable {depth pos : Nat}

theorem Replies.unique {p : Parser τ α} {r s : Reply α} (hr : Replies rules ts depth p pos r)
    (hs : Replies rules ts depth p pos s) : r = s :=
  Option.some.inj (hr.symm.trans hs)

theorem replies_token {text : String} {tag : Tag} {r : Reply String} :
    Replies rules ts depth (token text tag) pos r ↔ tokenAt ts pos (· == ⟨text, tag⟩) = r :=
  Option.some.injEq .. ▸ Iff.rfl

theorem replies_tagged {tag : Tag} {r : Reply String} :
    Replies rules ts depth (tagged tag) pos r ↔ tokenAt ts pos (·.tag == tag) = r :=
  Option.some.injEq .. ▸ Iff.rfl

theorem replies_seq {p : Parser τ α} {q : Parser τ β} {r : Reply (α × β)} :
    Replies rules ts depth (seq p q) pos r ↔
      Replies rules ts depth p pos none ∧ r = none ∨
      ∃ next a s, Replies rules ts depth p pos (some (next, a)) ∧
        Replies rules ts depth q next s ∧ r = s.map fun (stop, b) => (stop, (a, b)) := by
  rw [Replies, run, runWith, Trace.value?_bind_eq_some]
  constructor
  · rintro ⟨_ | ⟨next, a⟩, hp, h⟩
    · exact .inl ⟨hp, (Option.some.inj h).symm⟩
    · obtain ⟨s, hq, h⟩ := Trace.value?_bind_eq_some.1 h
      exact .inr ⟨next, a, s, hp, hq, (Option.some.inj h).symm⟩
  · rintro (⟨hp, rfl⟩ | ⟨next, a, s, hp, hq, rfl⟩)
    · exact ⟨none, hp, rfl⟩
    · exact ⟨some (next, a), hp, Trace.value?_bind_eq_some.2 ⟨s, hq, rfl⟩⟩

theorem replies_alt {p q : Parser τ α} {r : Reply α} :
    Replies rules ts depth (alt p q) pos r ↔
      Replies rules ts depth p pos none ∧ Replies rules ts depth q pos r ∨
      ∃ found, Replies rules ts depth p pos (some found) ∧ r = some found := by
  rw [Replies, run, runWith, Trace.value?_bind_eq_some]
  constructor
  · rintro ⟨_ | found, hp, h⟩
    · exact .inl ⟨hp, h⟩
    · exact .inr ⟨found, hp, (Option.some.inj h).symm⟩
  · rintro (⟨hp, hq⟩ | ⟨found, hp, rfl⟩)
    · exact ⟨none, hp, hq⟩
    · exact ⟨some found, hp, rfl⟩

theorem replies_opt {p : Parser τ α} {r : Reply (Option α)} :
    Replies rules ts depth (opt p) pos r ↔
      Replies rules ts depth p pos none ∧ r = some (pos, none) ∨
      ∃ stop a, Replies rules ts depth p pos (some (stop, a)) ∧ r = some (stop, some a) := by
  rw [Replies, run, runWith, Trace.value?_bind_eq_some]
  constructor
  · rintro ⟨_ | ⟨stop, a⟩, hp, h⟩
    · exact .inl ⟨hp, (Option.some.inj h).symm⟩
    · exact .inr ⟨stop, a, hp, (Option.some.inj h).symm⟩
  · rintro (⟨hp, rfl⟩ | ⟨stop, a, hp, rfl⟩)
    · exact ⟨none, hp, rfl⟩
    · exact ⟨some (stop, a), hp, rfl⟩

theorem value?_bind_pure {x : Trace (Reply α)} {f : Reply α → Reply β} {r : Reply β} :
    (x >>= fun s => pure (f s)).value? = some r ↔ ∃ s, x.value? = some s ∧ r = f s := by
  rw [Trace.value?_bind_eq_some]
  constructor
  · rintro ⟨s, hs, h⟩
    exact ⟨s, hs, (Option.some.inj h).symm⟩
  · rintro ⟨s, hs, rfl⟩
    exact ⟨s, hs, rfl⟩

theorem replies_map {f : α → β} {p : Parser τ α} {r : Reply β} :
    Replies rules ts depth (map f p) pos r ↔
      ∃ s, Replies rules ts depth p pos s ∧ r = s.map fun (stop, a) => (stop, f a) :=
  value?_bind_pure

theorem replies_filterMap {f : α → Option β} {p : Parser τ α} {r : Reply β} :
    Replies rules ts depth (filterMap f p) pos r ↔
      ∃ s, Replies rules ts depth p pos s ∧ r = s.bind fun (stop, a) => (f a).map (stop, ·) :=
  value?_bind_pure

theorem replies_whole {p : Parser τ α} {r : Reply α} :
    Replies rules ts depth (whole p) pos r ↔
      ∃ s, Replies rules ts depth p pos s ∧ r = s.filter fun (stop, _) => stop == ts.size :=
  value?_bind_pure

theorem replies_probe {name : String} {p : Parser τ α} {r : Reply α} :
    Replies rules ts depth (probe name p) pos r ↔ Replies rules ts depth p pos r := by
  rw [Replies, run, runWith, Trace.value?_bind_eq_some]
  constructor
  · rintro ⟨s, hs, h⟩
    rw [← Option.some.inj h]
    exact hs
  · intro h
    exact ⟨r, h, rfl⟩

theorem enter_iff {p : Parser τ α} {r : Reply α} :
    (enter rules ts depth p pos).value? = some r ↔
      ∃ d, depth = d + 1 ∧ Replies rules ts d p pos r := by
  cases depth with
  | zero =>
    constructor
    · intro h
      cases h
    · rintro ⟨d, h, -⟩
      cases h
  | succ d =>
    constructor
    · intro h
      exact ⟨d, rfl, h⟩
    · rintro ⟨d', h, hr⟩
      cases h
      exact hr

theorem replies_delay {p : Parser τ α} {r : Reply α} :
    Replies rules ts depth (delay p) pos r ↔ ∃ d, depth = d + 1 ∧ Replies rules ts d p pos r :=
  enter_iff

theorem replies_rule {i : ι} {r : Reply (τ i)} :
    Replies rules ts depth (rule i) pos r ↔
      ∃ d, depth = d + 1 ∧ Replies rules ts d (rules i) pos r :=
  enter_iff

theorem repeatFrom_iff {p : Parser τ α} {n pos : Nat} {found : Nat × List α} :
    (repeatFrom (run rules ts depth p) n pos).value? = some found ↔
      Repeats rules ts depth p n pos found := by
  constructor
  · intro h
    induction n generalizing pos found with
    | zero => cases h
    | succ n ih =>
      obtain ⟨_ | ⟨next, a⟩, hp, h⟩ := Trace.value?_bind_eq_some.1 h
      · cases h
        exact .done hp
      · obtain ⟨⟨stop, as⟩, hrest, h⟩ := Trace.value?_bind_eq_some.1 h
        cases h
        exact .step hp (ih hrest)
  · intro h
    induction h with
    | done hp => exact Trace.value?_bind_eq_some.2 ⟨none, hp, rfl⟩
    | step hp _ ih =>
      refine Trace.value?_bind_eq_some.2 ⟨_, hp, ?_⟩
      exact Trace.value?_bind_eq_some.2 ⟨_, ih, rfl⟩

theorem sepFrom_iff {p : Parser τ α} {s : Parser τ (α → α → α)} {n pos : Nat} {left : α}
    {found : Nat × α} :
    (sepFrom (run rules ts depth p) (run rules ts depth s) n pos left).value? = some found ↔
      Joins rules ts depth p s n pos left found := by
  constructor
  · intro h
    induction n generalizing pos left with
    | zero => cases h
    | succ n ih =>
      obtain ⟨_ | ⟨after, join⟩, hs, h⟩ := Trace.value?_bind_eq_some.1 h
      · cases h
        exact .done hs
      · obtain ⟨_ | ⟨next, right⟩, hp, h⟩ := Trace.value?_bind_eq_some.1 h
        · cases h
          exact .dangling hs hp
        · exact .step hs hp (ih h)
  · intro h
    induction h with
    | done hs => exact Trace.value?_bind_eq_some.2 ⟨none, hs, rfl⟩
    | dangling hs hp =>
      refine Trace.value?_bind_eq_some.2 ⟨_, hs, ?_⟩
      exact Trace.value?_bind_eq_some.2 ⟨none, hp, rfl⟩
    | step hs hp _ ih =>
      refine Trace.value?_bind_eq_some.2 ⟨_, hs, ?_⟩
      exact Trace.value?_bind_eq_some.2 ⟨_, hp, ih⟩

theorem replies_many {p : Parser τ α} {r : Reply (List α)} :
    Replies rules ts depth (many p) pos r ↔
      ∃ found, Repeats rules ts depth p (rounds ts pos) pos found ∧ r = some found := by
  rw [Replies, run, runWith, Trace.value?_bind_eq_some]
  constructor
  · rintro ⟨found, hp, h⟩
    exact ⟨found, repeatFrom_iff.1 hp, (Option.some.inj h).symm⟩
  · rintro ⟨found, hp, rfl⟩
    exact ⟨found, repeatFrom_iff.2 hp, rfl⟩

theorem replies_sepBy {p : Parser τ α} {s : Parser τ (α → α → α)} {r : Reply α} :
    Replies rules ts depth (sepBy p s) pos r ↔
      Replies rules ts depth p pos none ∧ r = none ∨
      ∃ next a found, Replies rules ts depth p pos (some (next, a)) ∧
        Joins rules ts depth p s (rounds ts next) next a found ∧ r = some found := by
  rw [Replies, run, runWith, Trace.value?_bind_eq_some]
  constructor
  · rintro ⟨_ | ⟨next, a⟩, hp, h⟩
    · exact .inl ⟨hp, (Option.some.inj h).symm⟩
    · obtain ⟨found, hs, h⟩ := Trace.value?_bind_eq_some.1 h
      exact .inr ⟨next, a, found, hp, sepFrom_iff.1 hs, (Option.some.inj h).symm⟩
  · rintro (⟨hp, rfl⟩ | ⟨next, a, found, hp, hs, rfl⟩)
    · exact ⟨none, hp, rfl⟩
    · refine ⟨some (next, a), hp, ?_⟩
      exact Trace.value?_bind_eq_some.2 ⟨found, sepFrom_iff.2 hs, rfl⟩

end Parser

end ImpLang
