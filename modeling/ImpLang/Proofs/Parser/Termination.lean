import ImpLang.Proofs.Parser.Headway
import ImpLang.Proofs.Parser.Unfold

namespace ImpLang

/-- With enough depth the computation ends, and more of it changes nothing. -/
def Settles {ρ : Type} (f : Nat → Trace ρ) : Prop :=
  ∃ enough result, ∀ depth, enough ≤ depth → f depth = some result

namespace Settles

variable {ρ σ : Type} {f : Nat → Trace ρ}

theorem pure (v : ρ) : Settles fun _ => (Pure.pure v : Trace ρ) := ⟨0, ([], v), fun _ _ => rfl⟩

theorem bind {g : Nat → ρ → Trace σ} (hf : Settles f)
    (hg : ∀ depth calls v, f depth = some (calls, v) → Settles (g · v)) :
    Settles fun depth => f depth >>= g depth := by
  obtain ⟨n, ⟨before, v⟩, hn⟩ := hf
  obtain ⟨m, ⟨after, w⟩, hm⟩ := hg n before v (hn n (Nat.le_refl n))
  refine ⟨max n m, (before ++ after, w), fun depth hd => ?_⟩
  have hv := hn depth (Nat.le_trans (Nat.le_max_left n m) hd)
  have hw := hm depth (Nat.le_trans (Nat.le_max_right n m) hd)
  exact Trace.bind_eq_some_iff.2 ⟨before, v, after, hv, hw, rfl⟩

/-- What comes behind a computation may depend on its value, but not on the depth. -/
theorem bind_right {g : ρ → Trace σ} (hf : Settles f) (hg : ∀ v, Settles fun _ => g v) :
    Settles fun depth => f depth >>= g := hf.bind fun _ _ v _ => hg v

theorem succ {g : Nat → Trace ρ} (hf : Settles f) (hg : ∀ depth, g (depth + 1) = f depth) :
    Settles g := by
  obtain ⟨n, result, hn⟩ := hf
  refine ⟨n + 1, result, fun depth hd => ?_⟩
  obtain ⟨d, rfl⟩ : ∃ d, depth = d + 1 := ⟨depth - 1, by omega⟩
  rw [hg, hn d (Nat.le_of_succ_le_succ hd)]

end Settles

namespace Parser

variable {ι : Type} {τ : ι → Type} {α β : Type}

/-- The parser can match nothing. -/
def Nullable (rules : Rules τ) (p : Parser τ α) : Prop :=
  ∃ ts depth pos v, Replies rules ts depth p pos (some (pos, v))

/-- The parser can come to the rule before a token is used up. -/
def Leads (rules : Rules τ) : {α : Type} → Parser τ α → ι → Prop
  | _, token _ _, _ => False
  | _, tagged _, _ => False
  | _, seq p q, i => p.Leads rules i ∨ p.Nullable rules ∧ q.Leads rules i
  | _, alt p q, i => p.Leads rules i ∨ q.Leads rules i
  | _, opt p, i => p.Leads rules i
  | _, many p, i => p.Leads rules i
  | _, map _ p, i => p.Leads rules i
  | _, filterMap _ p, i => p.Leads rules i
  | _, sepBy p s, i => p.Leads rules i ∨ p.Nullable rules ∧ s.Leads rules i
  | _, whole p, i => p.Leads rules i
  | _, probe _ p, i => p.Leads rules i
  | _, delay p, i => p.Leads rules i
  | _, rule j, i => j = i

/-- No loop in the parser repeats a match of nothing; the rules in it are among the used ones. -/
def Progressive (rules : Rules τ) (used : ι → Prop) : {α : Type} → Parser τ α → Prop
  | _, token _ _ => True
  | _, tagged _ => True
  | _, seq p q => p.Progressive rules used ∧ q.Progressive rules used
  | _, alt p q => p.Progressive rules used ∧ q.Progressive rules used
  | _, opt p => p.Progressive rules used
  | _, many p => p.Progressive rules used ∧ ¬ p.Nullable rules
  | _, map _ p => p.Progressive rules used
  | _, filterMap _ p => p.Progressive rules used
  | _, sepBy p s =>
    p.Progressive rules used ∧ s.Progressive rules used ∧ ¬ (seq s p).Nullable rules
  | _, whole p => p.Progressive rules used
  | _, probe _ p => p.Progressive rules used
  | _, delay p => p.Progressive rules used
  | _, rule i => used i

/-- A parser that uses the given rules and whose runs all end: its loops make progress, and no
used rule leads to itself, nor from one rule to the next for ever. -/
structure WellFormed (rules : Rules τ) (used : ι → Prop) (p : Parser τ α) : Prop where
  parser : p.Progressive rules used
  bodies : ∀ i, used i → (rules i).Progressive rules used
  acc : ∀ i, used i → Acc (fun j i => (rules i).Leads rules j) i

variable {rules : Rules τ} {used : ι → Prop} {ts : Array Token} {depth pos next : Nat}

theorem replies_of_run {p : Parser τ α} {calls : List Call} {r : Reply α}
    (h : run rules ts depth p pos = some (calls, r)) : Replies rules ts depth p pos r := by
  rw [Replies, h]
  rfl

theorem Replies.mono {p : Parser τ α} {r : Reply α} (h : Replies rules ts depth p pos r)
    {depth' : Nat} (hd : depth ≤ depth') : Replies rules ts depth' p pos r := by
  obtain ⟨⟨calls, r⟩, hrun, rfl⟩ := Option.map_eq_some_iff.1 h
  exact replies_of_run (run_mono hd hrun)

theorem Replies.nullable_or_lt {p : Parser τ α} {v : α}
    (h : Replies rules ts depth p pos (some (next, v))) :
    p.Nullable rules ∧ next = pos ∨ pos < next ∧ next ≤ ts.size := by
  have hb := h.stop_bounds
  by_cases hnext : next = pos
  · subst hnext
    exact .inl ⟨⟨ts, depth, next, v, h⟩, rfl⟩
  · exact .inr (by omega)

theorem Nullable.seq {p : Parser τ α} {q : Parser τ β} {depth' : Nat} {a : α} {b : β}
    (hp : Replies rules ts depth p pos (some (pos, a)))
    (hq : Replies rules ts depth' q pos (some (pos, b))) : (seq p q).Nullable rules := by
  refine ⟨ts, max depth depth', pos, (a, b), replies_seq.2 (.inr ⟨pos, a, some (pos, b), ?_⟩)⟩
  exact ⟨hp.mono (Nat.le_max_left ..), hq.mono (Nat.le_max_right ..), rfl⟩

def SettlesFrom (rules : Rules τ) (ts : Array Token) (pos : Nat) (p : Parser τ α) : Prop :=
  ∀ next, next = pos ∨ pos < next ∧ next ≤ ts.size → Settles (run rules ts · p next)

theorem SettlesFrom.later {p : Parser τ α} (h : SettlesFrom rules ts pos p) (hlt : pos < next)
    (hle : next ≤ ts.size) : SettlesFrom rules ts next p := by
  intro last hlast
  exact h last (by omega)

theorem SettlesFrom.repeats {p : Parser τ α} (hp : SettlesFrom rules ts pos p)
    (hnot : ¬ p.Nullable rules) {n : Nat} (hn : ts.size - pos < n) :
    Settles fun depth => repeatFrom (run rules ts depth p) n pos := by
  induction n generalizing pos with
  | zero => omega
  | succ n ih =>
    refine (hp pos (.inl rfl)).bind fun depth calls r h => ?_
    match r with
    | none => exact .pure _
    | some (next, a) =>
      obtain ⟨hnull, -⟩ | ⟨hlt, hle⟩ := (replies_of_run h).nullable_or_lt
      · exact absurd hnull hnot
      · exact (ih (hp.later hlt hle) (by omega)).bind_right fun _ => .pure _

theorem SettlesFrom.joins {p : Parser τ α} {s : Parser τ (α → α → α)}
    (hp : SettlesFrom rules ts pos p) (hs : SettlesFrom rules ts pos s)
    (hnot : ¬ (seq s p).Nullable rules) {n : Nat} (hn : ts.size - pos < n) (left : α) :
    Settles fun depth => sepFrom (run rules ts depth p) (run rules ts depth s) n pos left := by
  induction n generalizing pos left with
  | zero => omega
  | succ n ih =>
    refine (hs pos (.inl rfl)).bind fun depth calls r h => ?_
    match r with
    | none => exact .pure _
    | some (after, join) =>
      have hafter := (replies_of_run h).nullable_or_lt
      refine (hp after (by omega)).bind fun depth' calls r h' => ?_
      match r with
      | none => exact .pure _
      | some (next, right) =>
        have hnext := (replies_of_run h').nullable_or_lt
        by_cases hstay : next = pos
        · obtain rfl : after = pos := by omega
          subst hstay
          exact absurd (.seq (replies_of_run h) (replies_of_run h')) hnot
        · have hlt : pos < next ∧ next ≤ ts.size := by omega
          exact ih (hp.later hlt.1 hlt.2) (hs.later hlt.1 hlt.2) (by omega) _

/-- The runs of a parser settle at a position if those of the rules that it leads to do so there,
and all runs at later positions. -/
theorem Progressive.settles {p : Parser τ α} (hp : p.Progressive rules used)
    (later : ∀ next, pos < next → next ≤ ts.size → ∀ {β : Type} {q : Parser τ β},
      q.Progressive rules used → Settles (run rules ts · q next))
    (heads : ∀ i, p.Leads rules i → Settles (run rules ts · (rules i) pos)) :
    Settles (run rules ts · p pos) := by
  induction p with
  | token | tagged => exact .pure _
  | seq p q ihp ihq =>
    refine (ihp hp.1 fun i hi => heads i (.inl hi)).bind fun depth calls r h => ?_
    match r with
    | none => exact .pure _
    | some (next, a) =>
      refine Settles.bind_right ?_ fun _ => .pure _
      obtain ⟨hnull, rfl⟩ | ⟨hlt, hle⟩ := (replies_of_run h).nullable_or_lt
      · exact ihq hp.2 fun i hi => heads i (.inr ⟨hnull, hi⟩)
      · exact later next hlt hle hp.2
  | alt p q ihp ihq =>
    refine (ihp hp.1 fun i hi => heads i (.inl hi)).bind fun depth calls r h => ?_
    match r with
    | none => exact ihq hp.2 fun i hi => heads i (.inr hi)
    | some found => exact .pure _
  | opt p ih =>
    refine (ih hp heads).bind_right fun r => ?_
    match r with
    | none => exact .pure _
    | some found => exact .pure _
  | many p ih =>
    have hfrom : SettlesFrom rules ts pos p := by
      rintro next (rfl | ⟨hlt, hle⟩)
      · exact ih hp.1 heads
      · exact later next hlt hle hp.1
    exact (hfrom.repeats hp.2 (Nat.lt_succ_self _)).bind_right fun _ => .pure _
  | map f p ih | filterMap f p ih | whole p ih => exact (ih hp heads).bind_right fun _ => .pure _
  | sepBy p s ihp ihs =>
    obtain ⟨hp, hs, hnot⟩ := hp
    have hfirst := ihp hp fun i hi => heads i (.inl hi)
    refine hfirst.bind fun depth calls r h => ?_
    match r with
    | none => exact .pure _
    | some (next, a) =>
      have hnext := (replies_of_run h).nullable_or_lt
      have hpfrom : SettlesFrom rules ts next p := by
        intro last hlast
        by_cases hstay : last = pos
        · exact hstay ▸ hfirst
        · exact later last (by omega) (by omega) hp
      have hsfrom : SettlesFrom rules ts next s := by
        intro last hlast
        by_cases hstay : last = pos
        · obtain ⟨hnull, -⟩ | hlt := hnext
          · exact hstay ▸ ihs hs fun i hi => heads i (.inr ⟨hnull, hi⟩)
          · omega
        · exact later last (by omega) (by omega) hs
      exact (hpfrom.joins hsfrom hnot (Nat.lt_succ_self _) a).bind_right fun _ => .pure _
  | probe name p ih => exact (ih hp heads).bind_right fun r => ⟨0, _, fun _ _ => rfl⟩
  | delay p ih => exact (ih hp heads).succ fun _ => rfl
  | rule i => exact (heads i rfl).succ fun _ => rfl

theorem Progressive.used_of_leads {p : Parser τ α} (hp : p.Progressive rules used) {i : ι}
    (hi : p.Leads rules i) : used i := by
  induction p with
  | token | tagged => exact hi.elim
  | seq p q ihp ihq =>
    obtain hi | ⟨-, hi⟩ := hi
    · exact ihp hp.1 hi
    · exact ihq hp.2 hi
  | alt p q ihp ihq => exact hi.elim (ihp hp.1) (ihq hp.2)
  | sepBy p s ihp ihs =>
    obtain hi | ⟨-, hi⟩ := hi
    · exact ihp hp.1 hi
    · exact ihs hp.2.1 hi
  | many p ih => exact ih hp.1 hi
  | opt p ih | map f p ih | filterMap f p ih | whole p ih | probe name p ih | delay p ih =>
    exact ih hp hi
  | rule j =>
    obtain rfl : j = i := hi
    exact hp

theorem WellFormed.settles {p : Parser τ α} (hp : WellFormed rules used p) (ts : Array Token)
    (pos : Nat) : Settles (run rules ts · p pos) := by
  suffices h : ∀ {β : Type} {q : Parser τ β}, q.Progressive rules used →
      Settles (run rules ts · q pos) from h hp.parser
  induction hn : ts.size - pos using Nat.strongRecOn generalizing pos with
  | ind n ih =>
    have later : ∀ next, pos < next → next ≤ ts.size → ∀ {β : Type} {q : Parser τ β},
        q.Progressive rules used → Settles (run rules ts · q next) := by
      intro next hlt hle β q hq
      exact ih (ts.size - next) (by omega) next rfl hq
    -- At one position, a rule waits only for those that it leads to.
    have heads : ∀ i, used i → Settles (run rules ts · (rules i) pos) := by
      intro i hi
      induction hp.acc i hi with
      | intro i _ ihi =>
        have hbody := hp.bodies i hi
        exact hbody.settles later fun j hj => ihi j hj (hbody.used_of_leads hj)
    intro β q hq
    exact hq.settles later fun i hi => heads i (hq.used_of_leads hi)

section Guarded

variable {c : ι → Bool} {p : Parser τ α}

theorem not_nullable_of_consumes (hr : Headway c rules) (hp : consumes c p = true) :
    ¬ p.Nullable rules := by
  rintro ⟨ts, depth, pos, v, h⟩
  have := ((h.bounds hr).2.2 hp).1
  omega

theorem progressive_of_guarded (hr : Headway c rules) {behind : Bool}
    (hg : guarded c behind p = true) : p.Progressive rules fun _ => True := by
  induction p generalizing behind with
  | token | tagged | rule => trivial
  | seq p q ihp ihq | alt p q ihp ihq =>
    obtain ⟨hgp, hgq⟩ := Bool.and_eq_true_iff.1 hg
    exact ⟨ihp hgp, ihq hgq⟩
  | many p ih =>
    obtain ⟨hgp, hc⟩ := Bool.and_eq_true_iff.1 hg
    exact ⟨ih hgp, not_nullable_of_consumes hr hc⟩
  | sepBy p s ihp ihs =>
    obtain ⟨hg, hc⟩ := Bool.and_eq_true_iff.1 hg
    obtain ⟨hgp, hgs⟩ := Bool.and_eq_true_iff.1 hg
    have hsp : consumes c (seq s p) = true := (Bool.or_comm ..).trans hc
    exact ⟨ihp hgp, ihs hgs, not_nullable_of_consumes hr hsp⟩
  | delay p ih => exact ih (Bool.and_eq_true_iff.1 hg).2
  | opt p ih | map f p ih | filterMap f p ih | whole p ih | probe name p ih => exact ih hg

theorem not_leads_of_guarded (hr : Headway c rules) (hg : guarded c false p = true) (i : ι) :
    ¬ p.Leads rules i := by
  -- What stands behind a parser is led to only if that one can match nothing.
  have hbehind : ∀ {α β : Type} {p : Parser τ α} {q : Parser τ β}, p.Nullable rules →
      guarded c (false || consumes c p) q = true → guarded c false q = true := by
    intro α β p q hnull hq
    rwa [Bool.eq_false_iff.2 fun hp => not_nullable_of_consumes hr hp hnull] at hq
  induction p with
  | token | tagged => exact id
  | seq p q ihp ihq =>
    obtain ⟨hgp, hgq⟩ := Bool.and_eq_true_iff.1 hg
    rintro (h | ⟨hnull, h⟩)
    · exact ihp hgp h
    · exact ihq (hbehind hnull hgq) h
  | alt p q ihp ihq =>
    obtain ⟨hgp, hgq⟩ := Bool.and_eq_true_iff.1 hg
    exact fun h => h.elim (ihp hgp) (ihq hgq)
  | many p ih => exact ih (Bool.and_eq_true_iff.1 hg).1
  | sepBy p s ihp ihs =>
    obtain ⟨hgp, hgs⟩ := Bool.and_eq_true_iff.1 (Bool.and_eq_true_iff.1 hg).1
    rintro (h | ⟨hnull, h⟩)
    · exact ihp hgp h
    · exact ihs (hbehind hnull hgs) h
  | opt p ih | map f p ih | filterMap f p ih | whole p ih | probe name p ih => exact ih hg
  | delay p => cases hg
  | rule j => cases hg

theorem wellFormed_of_guarded (hr : Headway c rules) (hg : guarded c false p = true) :
    WellFormed rules (fun _ => True) p where
  parser := progressive_of_guarded hr hg
  bodies i _ := progressive_of_guarded hr (hr.guarded i)
  acc i _ := .intro i fun j hj => absurd hj (not_leads_of_guarded hr (hr.guarded i) j)

end Guarded

end Parser

end ImpLang
