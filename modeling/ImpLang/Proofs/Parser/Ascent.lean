import ImpLang.Proofs.Parser.Termination

namespace ImpLang

theorem Trace.bind_congr_of_eq {α β : Type u} {x : Trace α} {f g : α → Trace β}
    (h : ∀ calls a, x = some (calls, a) → f a = g a) : x >>= f = x >>= g := by
  obtain _ | ⟨calls, a⟩ := x
  · rfl
  · change Trace.bind _ f = Trace.bind _ g
    simp only [Trace.bind, h calls a rfl]

namespace Parser

variable {ι : Type} {τ : ι → Type} {α : Type}

/-- Calls a delayed parser or a rule from inside a call that started at `base`. The call must start
behind that one, and not behind the tokens; else it is not answered. No other bound is set on how
deep calls are nested. -/
def enterBehind (rules : Rules τ) (ts : Array Token) (base : Nat) {α : Type} (p : Parser τ α)
    (pos : Nat) : Trace (Reply α) :=
  if base < pos ∧ pos ≤ ts.size then
    runWith rules ts (fun q next => enterBehind rules ts pos q next) p pos
  else .diverge
termination_by ts.size - base

variable {c : ι → Bool} {rules : Rules τ} {ts : Array Token} {depth base pos start : Nat}

theorem repeatFrom_eq_run {p : Parser τ α} {f : Nat → Trace (Reply α)}
    (h : ∀ next, pos ≤ next → next = pos ∨ next ≤ ts.size → f next = run rules ts depth p next)
    (n : Nat) : repeatFrom f n pos = repeatFrom (run rules ts depth p) n pos := by
  induction n generalizing pos with
  | zero => rfl
  | succ n ih =>
    rw [repeatFrom, repeatFrom, h pos (Nat.le_refl pos) (.inl rfl)]
    apply Trace.bind_congr_of_eq
    intro calls r hr
    obtain _ | ⟨next, a⟩ := r
    · rfl
    · have hb := (replies_of_run hr).stop_bounds
      have hrest : repeatFrom f n next = repeatFrom (run rules ts depth p) n next := by
        apply ih
        intro later hlater hend
        exact h later (by omega) (by omega)
      simp only [hrest]

theorem sepFrom_eq_run {p : Parser τ α} {s : Parser τ (α → α → α)} {f : Nat → Trace (Reply α)}
    {g : Nat → Trace (Reply (α → α → α))}
    (hf : ∀ next, pos ≤ next → next = pos ∨ next ≤ ts.size → f next = run rules ts depth p next)
    (hg : ∀ next, pos ≤ next → next = pos ∨ next ≤ ts.size → g next = run rules ts depth s next)
    (n : Nat) (left : α) :
    sepFrom f g n pos left = sepFrom (run rules ts depth p) (run rules ts depth s) n pos left := by
  induction n generalizing pos left with
  | zero => rfl
  | succ n ih =>
    rw [sepFrom, sepFrom, hg pos (Nat.le_refl pos) (.inl rfl)]
    apply Trace.bind_congr_of_eq
    intro calls r hr
    obtain _ | ⟨after, join⟩ := r
    · rfl
    · have hb := (replies_of_run hr).stop_bounds
      simp only [hf after hb.1 hb.2]
      apply Trace.bind_congr_of_eq
      intro calls r hr
      obtain _ | ⟨next, right⟩ := r
      · rfl
      · have hb' := (replies_of_run hr).stop_bounds
        apply ih
        · intro later hlater hend
          exact hf later (by omega) (by omega)
        · intro later hlater hend
          exact hg later (by omega) (by omega)

/-- The calls that a guarded parser makes itself all start behind `base` and among the tokens: the
run is the same, however other calls are answered. -/
theorem runWith_eq_run (hr : Headway c rules)
    {enter' : {α : Type} → Parser τ α → Nat → Trace (Reply α)}
    (henter : ∀ {α : Type} (q : Parser τ α) next, guarded c false q = true → base < next →
      next ≤ ts.size → enter' q next = enter rules ts depth q next)
    {p : Parser τ α} {behind : Bool} (hg : guarded c behind p = true) (hle : base ≤ pos)
    (hend : pos = base ∨ pos ≤ ts.size) (hb : behind = true → base < pos) :
    runWith rules ts enter' p pos = run rules ts depth p pos := by
  induction p generalizing pos behind with
  | token | tagged => rfl
  | seq p q ihp ihq =>
    obtain ⟨hgp, hgq⟩ := Bool.and_eq_true_iff.1 hg
    rw [run, runWith, runWith, ihp hgp hle hend hb]
    apply Trace.bind_congr_of_eq
    intro calls r hrun
    obtain _ | ⟨next, a⟩ := r
    · rfl
    · have hp := replies_of_run hrun
      have hbounds := hp.stop_bounds
      have hq : runWith rules ts enter' q next = run rules ts depth q next :=
        ihq hgq (by omega) (by omega) (hp.lt_of_behind hr hle hb)
      simp only [hq]
      rfl
  | alt p q ihp ihq =>
    obtain ⟨hgp, hgq⟩ := Bool.and_eq_true_iff.1 hg
    rw [run, runWith, runWith, ihp hgp hle hend hb, ihq hgq hle hend hb]
    rfl
  | opt p ih | map f p ih | filterMap f p ih | whole p ih | probe name p ih =>
    rw [run, runWith, runWith, ih hg hle hend hb]
    rfl
  | many p ih =>
    obtain ⟨hgp, -⟩ := Bool.and_eq_true_iff.1 hg
    have hp : ∀ next, pos ≤ next → next = pos ∨ next ≤ ts.size →
        runWith rules ts enter' p next = run rules ts depth p next := by
      intro next hnext hlast
      exact ih hgp (by omega) (by omega) fun h => Nat.lt_of_lt_of_le (hb h) hnext
    rw [run, runWith, runWith, repeatFrom_eq_run hp]
    rfl
  | sepBy p s ihp ihs =>
    obtain ⟨hg, -⟩ := Bool.and_eq_true_iff.1 hg
    obtain ⟨hgp, hgs⟩ := Bool.and_eq_true_iff.1 hg
    rw [run, runWith, runWith, ihp hgp hle hend hb]
    apply Trace.bind_congr_of_eq
    intro calls r hrun
    obtain _ | ⟨next, a⟩ := r
    · rfl
    · have hfirst := replies_of_run hrun
      have hbounds := hfirst.stop_bounds
      have hp : ∀ later, next ≤ later → later = next ∨ later ≤ ts.size →
          runWith rules ts enter' p later = run rules ts depth p later := by
        intro later hlater hlast
        refine ihp hgp (by omega) (by omega) fun h => ?_
        have := hb h
        omega
      have hs : ∀ later, next ≤ later → later = next ∨ later ≤ ts.size →
          runWith rules ts enter' s later = run rules ts depth s later := by
        intro later hlater hlast
        refine ihs hgs (by omega) (by omega) fun h => ?_
        exact Nat.lt_of_lt_of_le (hfirst.lt_of_behind hr hle hb h) hlater
      simp only [sepFrom_eq_run hp hs]
      rfl
  | delay p ih =>
    obtain ⟨hbehind, hgp⟩ := Bool.and_eq_true_iff.1 hg
    have hlt := hb hbehind
    exact henter p pos hgp hlt (by omega)
  | rule i =>
    have hlt := hb hg
    exact henter (rules i) pos (hr.guarded i) hlt (by omega)

theorem enterBehind_eq_enter (hr : Headway c rules) {p : Parser τ α}
    (hg : guarded c false p = true) (hlt : base < pos) (hle : pos ≤ ts.size)
    (hd : ts.size - base ≤ depth) :
    enterBehind rules ts base p pos = enter rules ts depth p pos := by
  induction depth generalizing α base pos with
  | zero => omega
  | succ depth ih =>
    rw [enterBehind, if_pos ⟨hlt, hle⟩]
    refine runWith_eq_run hr ?_ hg (Nat.le_refl pos) (.inl rfl) (by simp)
    intro β q next hq hnext hlast
    exact ih hq hnext hlast (by omega)

/-- The run of a guarded parser is the one in which every call must start behind the call that it
is made in. -/
theorem run_eq_enterBehind (hr : Headway c rules) {p : Parser τ α}
    (hg : guarded c false p = true) (hd : ts.size - start ≤ depth) :
    run rules ts depth p start = runWith rules ts (enterBehind rules ts start) p start := by
  refine (runWith_eq_run hr ?_ hg (Nat.le_refl start) (.inl rfl) (by simp)).symm
  intro β q next hq hnext hlast
  exact enterBehind_eq_enter hr hq hnext hlast hd

/-- The run of the parser ends, with calls that nest no deeper than there are tokens from the start
on, each behind the one that it is made in; and a match uses up tokens. -/
structure Ascends (rules : Rules τ) (ts : Array Token) (p : Parser τ α) (start : Nat) : Prop where
  ends : ∃ calls r, ∀ depth, ts.size - start ≤ depth →
    run rules ts depth p start = some (calls, r)
  /-- Every nested call starts at a larger position than the call around it. -/
  climbs : ∀ depth, ts.size - start ≤ depth →
    run rules ts depth p start = runWith rules ts (enterBehind rules ts start) p start
  consumes : ∀ depth stop v, Replies rules ts depth p start (some (stop, v)) →
    start < stop ∧ stop ≤ ts.size

theorem ascends_of_guarded (hr : Headway c rules) {p : Parser τ α}
    (hg : guarded c false p = true) (hc : consumes c p = true) (ts : Array Token) (start : Nat) :
    Ascends rules ts p start where
  ends := by
    obtain ⟨r, h⟩ := exists_replies hr hg (Nat.le_refl start) (.inl rfl) (by simp)
      (Nat.le_refl (ts.size - start))
    obtain ⟨⟨calls, r⟩, hrun, rfl⟩ := Option.map_eq_some_iff.1 h
    exact ⟨calls, r, fun depth hd => run_mono hd hrun⟩
  climbs depth hd := run_eq_enterBehind hr hg hd
  consumes depth stop v h := (h.bounds hr).2.2 hc

end Parser

end ImpLang
