import ImpLang.Proofs.Parser.Language

namespace ImpLang.Parser

variable {ι : Type} {τ : ι → Type} {α : Type}

/-- Every match uses up a token, if the matches of the rules that `c` names do. -/
def consumes (c : ι → Bool) : {α : Type} → Parser τ α → Bool
  | _, token _ _ => true
  | _, tagged _ => true
  | _, seq p q => consumes c p || consumes c q
  | _, alt p q => consumes c p && consumes c q
  | _, opt _ => false
  | _, many _ => false
  | _, map _ p => consumes c p
  | _, filterMap _ p => consumes c p
  | _, sepBy p _ => consumes c p
  | _, whole p => consumes c p
  | _, probe _ p => consumes c p
  | _, delay p => consumes c p
  | _, rule i => c i

/-- Rules and delayed parsers are entered only behind a token, and loops use up tokens. `behind`
says that a token has been used up before the parser. -/
def guarded (c : ι → Bool) : (behind : Bool) → {α : Type} → Parser τ α → Bool
  | _, _, token _ _ => true
  | _, _, tagged _ => true
  | behind, _, seq p q => guarded c behind p && guarded c (behind || consumes c p) q
  | behind, _, alt p q => guarded c behind p && guarded c behind q
  | behind, _, opt p => guarded c behind p
  | behind, _, many p => guarded c behind p && consumes c p
  | behind, _, map _ p => guarded c behind p
  | behind, _, filterMap _ p => guarded c behind p
  | behind, _, sepBy p s =>
    guarded c behind p && guarded c (behind || consumes c p) s && (consumes c p || consumes c s)
  | behind, _, whole p => guarded c behind p
  | behind, _, probe _ p => guarded c behind p
  | behind, _, delay p => behind && guarded c false p
  | behind, _, rule _ => behind

/-- The rules make headway: none comes back to itself before a token is used up. -/
structure Headway (c : ι → Bool) (rules : Rules τ) : Prop where
  consumes : ∀ i, c i = true → consumes c (rules i) = true
  guarded : ∀ i, guarded c false (rules i) = true

variable {c : ι → Bool} {rules : Rules τ} {ts : Array Token} {depth pos stop : Nat}

abbrev Consumed (c : ι → Bool) (i : ι) (w : List Token) (_ : τ i) : Prop := c i = true → w ≠ []

theorem ne_nil_of_consumes {p : Parser τ α} {w : List Token} {v : α} (hp : consumes c p = true)
    (h : Language (Consumed c) p w v) : w ≠ [] := by
  induction p generalizing w with
  | token text tag => rw [h.1]; exact List.cons_ne_nil _ _
  | tagged tag => rw [show w = _ from h]; exact List.cons_ne_nil _ _
  | seq p q ihp ihq =>
    obtain ⟨u, x, rfl, hu, hx⟩ := h
    obtain hp | hq := Bool.or_eq_true_iff.1 hp
    · exact List.append_ne_nil_of_left_ne_nil (ihp hp hu) x
    · exact List.append_ne_nil_of_right_ne_nil u (ihq hq hx)
  | alt p q ihp ihq =>
    obtain ⟨hp, hq⟩ := Bool.and_eq_true_iff.1 hp
    exact h.elim (ihp hp) (ihq hq)
  | opt | many => cases hp
  | map f p ih | filterMap f p ih =>
    obtain ⟨a, h, -⟩ := h
    exact ih hp h
  | sepBy p s ihp _ => exact Chain.ne_nil (fun h => ihp hp h) h
  | whole p ih | probe name p ih | delay p ih => exact ih hp h
  | rule i => exact h hp

theorem Replies.bounds (hr : Headway c rules) {p : Parser τ α} {v : α}
    (h : Replies rules ts depth p pos (some (stop, v))) :
    pos ≤ stop ∧ (stop = pos ∨ stop ≤ ts.size) ∧
      (consumes c p = true → pos < stop ∧ stop ≤ ts.size) := by
  obtain ⟨w, hspan, hw⟩ := h.spans (R := Consumed c)
    fun i _ _ hw hc => ne_nil_of_consumes (hr.consumes i hc) hw
  refine ⟨hspan.le, ?_, ?_⟩
  · by_cases hn : w = []
    · left
      rw [hspan.2, hn, List.length_nil, Nat.add_zero]
    · exact .inr (hspan.stop_le hn)
  · intro hc
    have hn := ne_nil_of_consumes hc hw
    have := List.length_pos_iff.2 hn
    have := hspan.2
    exact ⟨by omega, hspan.stop_le hn⟩

theorem Replies.lt_of_behind (hr : Headway c rules) {p : Parser τ α} {v : α} {behind : Bool}
    {base : Nat} (h : Replies rules ts depth p pos (some (stop, v))) (hle : base ≤ pos)
    (hb : behind = true → base < pos) (hbc : (behind || consumes c p) = true) : base < stop := by
  have hbounds := h.bounds hr
  obtain hbc | hbc := Bool.or_eq_true_iff.1 hbc
  · have := hb hbc
    omega
  · have := hbounds.2.2 hbc
    omega

theorem Joins.le (hr : Headway c rules) {p : Parser τ α} {s : Parser τ (α → α → α)} {n : Nat}
    {left : α} {found : Nat × α} (h : Joins rules ts depth p s n pos left found) :
    pos ≤ found.1 := by
  induction h with
  | done | dangling => exact Nat.le_refl _
  | step hs hp _ ih =>
    have hs' := (hs.bounds hr).1
    have hp' := (hp.bounds hr).1
    omega

def EndsFrom (rules : Rules τ) (ts : Array Token) (depth base : Nat) (p : Parser τ α) : Prop :=
  ∀ pos, base ≤ pos → pos = base ∨ pos ≤ ts.size → ∃ r, Replies rules ts depth p pos r

theorem EndsFrom.mono {p : Parser τ α} {next : Nat} (hp : EndsFrom rules ts depth pos p)
    (hle : pos ≤ next) (hend : next = pos ∨ next ≤ ts.size) : EndsFrom rules ts depth next p := by
  intro later hlater hlast
  exact hp later (by omega) (by omega)

theorem EndsFrom.repeats (hr : Headway c rules) {p : Parser τ α} (hc : consumes c p = true)
    (hp : EndsFrom rules ts depth pos p) {n : Nat} (hn : ts.size - pos < n) :
    ∃ found, Repeats rules ts depth p n pos found := by
  induction n generalizing pos with
  | zero => omega
  | succ n ih =>
    obtain ⟨_ | ⟨next, a⟩, h⟩ := hp pos (Nat.le_refl pos) (.inl rfl)
    · exact ⟨_, .done h⟩
    · have hb := (h.bounds hr).2.2 hc
      have hnext := hp.mono (Nat.le_of_lt hb.1) (.inr hb.2)
      obtain ⟨⟨stop, as⟩, hrest⟩ := ih hnext (by omega)
      exact ⟨_, .step h hrest⟩

theorem EndsFrom.joins (hr : Headway c rules) {p : Parser τ α} {s : Parser τ (α → α → α)}
    (hc : consumes c p = true ∨ consumes c s = true) (hp : EndsFrom rules ts depth pos p)
    (hs : EndsFrom rules ts depth pos s) {n : Nat} (hn : ts.size - pos < n) (left : α) :
    ∃ found, Joins rules ts depth p s n pos left found := by
  induction n generalizing pos left with
  | zero => omega
  | succ n ih =>
    obtain ⟨_ | ⟨after, join⟩, h⟩ := hs pos (Nat.le_refl pos) (.inl rfl)
    · exact ⟨_, .done h⟩
    · have hb := h.bounds hr
      obtain ⟨_ | ⟨next, right⟩, h'⟩ := hp after (by omega) (by omega)
      · exact ⟨_, .dangling h h'⟩
      · have hb' := h'.bounds hr
        have hlt : pos < next ∧ next ≤ ts.size := by
          obtain hc | hc := hc
          · have := hb'.2.2 hc
            omega
          · have := hb.2.2 hc
            omega
        have hp' := hp.mono (Nat.le_of_lt hlt.1) (.inr hlt.2)
        have hs' := hs.mono (Nat.le_of_lt hlt.1) (.inr hlt.2)
        obtain ⟨found, hrest⟩ := ih hp' hs' (by omega) (join left right)
        exact ⟨found, .step h h' hrest⟩

/-- Every run of a guarded parser ends. Where a token has been used up since `base`, the calls that
are left nest at most as deep as there are tokens behind `base`. -/
theorem exists_replies (hr : Headway c rules) {p : Parser τ α} {behind : Bool} {base : Nat}
    (hg : guarded c behind p = true) (hle : base ≤ pos) (hend : pos = base ∨ pos ≤ ts.size)
    (hb : behind = true → base < pos) (hdepth : ts.size - base ≤ depth) :
    ∃ r, Replies rules ts depth p pos r := by
  induction depth using Nat.strongRecOn generalizing α pos behind base with
  | ind depth enter =>
    induction p generalizing pos behind with
    | token text tag => exact ⟨_, replies_token.2 rfl⟩
    | tagged tag => exact ⟨_, replies_tagged.2 rfl⟩
    | seq p q ihp ihq =>
      obtain ⟨hgp, hgq⟩ := Bool.and_eq_true_iff.1 hg
      obtain ⟨_ | ⟨next, a⟩, hp⟩ := ihp hgp hle hend hb
      · exact ⟨none, replies_seq.2 (.inl ⟨hp, rfl⟩)⟩
      · have hbounds := hp.bounds hr
        obtain ⟨r, hq⟩ := ihq hgq (by omega) (by omega) (hp.lt_of_behind hr hle hb)
        exact ⟨_, replies_seq.2 (.inr ⟨next, a, r, hp, hq, rfl⟩)⟩
    | alt p q ihp ihq =>
      obtain ⟨hgp, hgq⟩ := Bool.and_eq_true_iff.1 hg
      obtain ⟨_ | found, hp⟩ := ihp hgp hle hend hb
      · obtain ⟨r, hq⟩ := ihq hgq hle hend hb
        exact ⟨r, replies_alt.2 (.inl ⟨hp, hq⟩)⟩
      · exact ⟨some found, replies_alt.2 (.inr ⟨found, hp, rfl⟩)⟩
    | opt p ih =>
      obtain ⟨_ | ⟨stop, a⟩, hp⟩ := ih hg hle hend hb
      · exact ⟨_, replies_opt.2 (.inl ⟨hp, rfl⟩)⟩
      · exact ⟨_, replies_opt.2 (.inr ⟨stop, a, hp, rfl⟩)⟩
    | many p ih =>
      obtain ⟨hgp, hc⟩ := Bool.and_eq_true_iff.1 hg
      have hp : EndsFrom rules ts depth pos p := fun next hnext hnend =>
        ih hgp (by omega) (by omega) fun h => Nat.lt_of_lt_of_le (hb h) hnext
      obtain ⟨found, h⟩ := hp.repeats hr hc (Nat.lt_succ_self _)
      exact ⟨some found, replies_many.2 ⟨found, h, rfl⟩⟩
    | map f p ih =>
      obtain ⟨r, hp⟩ := ih hg hle hend hb
      exact ⟨_, replies_map.2 ⟨r, hp, rfl⟩⟩
    | filterMap f p ih =>
      obtain ⟨r, hp⟩ := ih hg hle hend hb
      exact ⟨_, replies_filterMap.2 ⟨r, hp, rfl⟩⟩
    | sepBy p s ihp ihs =>
      obtain ⟨hg, hc⟩ := Bool.and_eq_true_iff.1 hg
      obtain ⟨hgp, hgs⟩ := Bool.and_eq_true_iff.1 hg
      obtain ⟨_ | ⟨next, a⟩, h⟩ := ihp hgp hle hend hb
      · exact ⟨none, replies_sepBy.2 (.inl ⟨h, rfl⟩)⟩
      · have hbounds := h.bounds hr
        have hp : EndsFrom rules ts depth next p := fun pos' hpos hpend =>
          ihp hgp (by omega) (by omega) fun hb' => by
            have := hb hb'
            omega
        have hs : EndsFrom rules ts depth next s := fun pos' hpos hpend =>
          ihs hgs (by omega) (by omega) fun hb' =>
            Nat.lt_of_lt_of_le (h.lt_of_behind hr hle hb hb') hpos
        obtain ⟨found, hj⟩ := hp.joins hr (Bool.or_eq_true_iff.1 hc) hs (Nat.lt_succ_self _) a
        exact ⟨some found, replies_sepBy.2 (.inr ⟨next, a, found, h, hj, rfl⟩)⟩
    | whole p ih =>
      obtain ⟨r, hp⟩ := ih hg hle hend hb
      exact ⟨_, replies_whole.2 ⟨r, hp, rfl⟩⟩
    | probe name p ih =>
      obtain ⟨r, hp⟩ := ih hg hle hend hb
      exact ⟨r, replies_probe.2 hp⟩
    | delay p ih =>
      obtain ⟨hbehind, hgp⟩ := Bool.and_eq_true_iff.1 hg
      have := hb hbehind
      obtain ⟨d, rfl⟩ : ∃ d, depth = d + 1 := ⟨depth - 1, by omega⟩
      obtain ⟨r, hp⟩ := enter d (Nat.lt_succ_self d) hgp (Nat.le_refl pos) (.inl rfl) (by simp)
        (by omega)
      exact ⟨r, replies_delay.2 ⟨d, rfl, hp⟩⟩
    | rule i =>
      have := hb hg
      obtain ⟨d, rfl⟩ : ∃ d, depth = d + 1 := ⟨depth - 1, by omega⟩
      obtain ⟨r, hp⟩ := enter d (Nat.lt_succ_self d) (hr.guarded i) (Nat.le_refl pos) (.inl rfl)
        (by simp) (by omega)
      exact ⟨r, replies_rule.2 ⟨d, rfl, hp⟩⟩

end ImpLang.Parser
