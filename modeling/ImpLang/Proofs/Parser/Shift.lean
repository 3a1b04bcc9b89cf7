import ImpLang.Proofs.Parser.Termination

namespace ImpLang

def Call.shift (k : Nat) (c : Call) : Call := ⟨c.name, k + c.start, c.stop.map (k + ·)⟩

def Reply.shift {α : Type} (k : Nat) (r : Reply α) : Reply α :=
  r.map fun (stop, a) => (k + stop, a)

/-- The recorded calls take place so many tokens later, and the value is changed by the function. -/
def Trace.shift {α β : Type} (k : Nat) (f : α → β) (x : Trace α) : Trace β :=
  Option.map (fun (calls, a) => (calls.map (Call.shift k), f a)) x

theorem Trace.shift_bind {α β γ δ : Type} {k : Nat} {f : α → β} {g : γ → δ} (x : Trace α)
    {F : α → Trace γ} {G : β → Trace δ} (h : ∀ a, G (f a) = (F a).shift k g) :
    x.shift k f >>= G = (x >>= F).shift k g := by
  change Trace.bind (x.shift k f) G = (Trace.bind x F).shift k g
  match x with
  | none => rfl
  | some found =>
    obtain ⟨calls, a⟩ := found
    simp only [Trace.bind, shift, Option.map_some, h a]
    cases F a with
    | none => rfl
    | some found =>
      simp only [Option.map_some, List.map_append]
      rfl

theorem Trace.value?_shift {α β : Type} (k : Nat) (f : α → β) (x : Trace α) :
    (x.shift k f).value? = x.value?.map f := by
  cases x <;> rfl

theorem Reply.shift_injective {α : Type} (k : Nat) :
    Function.Injective (Reply.shift k : Reply α → Reply α) := by
  refine Option.map_injective fun x y h => ?_
  obtain ⟨hstop, ha⟩ := Prod.mk.inj h
  exact Prod.ext (Nat.add_left_cancel hstop) ha

namespace Parser

variable {ι : Type} {τ : ι → Type} {α β : Type} {rules : Rules τ} {ts : Array Token} {k : Nat}

theorem tokenAt_shift (pos : Nat) (test : Token → Bool) :
    tokenAt ts (k + pos) test = Reply.shift k (tokenAt (ts.drop k) pos test) := by
  have hget : (ts.drop k)[pos]? = ts[k + pos]? := by
    rw [Array.getElem?_extract]
    split
    · rfl
    · exact (Array.getElem?_eq_none (by omega)).symm
  rw [tokenAt, tokenAt, hget]
  cases ts[k + pos]? with
  | none => rfl
  | some t =>
    cases h : test t <;> simp [h, Reply.shift, Nat.add_assoc]

theorem repeatFrom_shift {f g : Nat → Trace (Reply α)}
    (h : ∀ pos, f (k + pos) = (g pos).shift k (Reply.shift k)) (n pos : Nat) :
    repeatFrom f n (k + pos) = (repeatFrom g n pos).shift k fun (stop, as) => (k + stop, as) := by
  induction n generalizing pos with
  | zero => rfl
  | succ n ih =>
    rw [repeatFrom, repeatFrom, h]
    refine Trace.shift_bind _ fun r => ?_
    obtain _ | ⟨next, a⟩ := r
    · rfl
    · change repeatFrom f n (k + next) >>= _ = _
      rw [ih]
      exact Trace.shift_bind _ fun _ => rfl

theorem sepFrom_shift {f g : Nat → Trace (Reply α)} {f' g' : Nat → Trace (Reply (α → α → α))}
    (h : ∀ pos, f (k + pos) = (g pos).shift k (Reply.shift k))
    (h' : ∀ pos, f' (k + pos) = (g' pos).shift k (Reply.shift k)) (n pos : Nat) (left : α) :
    sepFrom f f' n (k + pos) left =
      (sepFrom g g' n pos left).shift k fun (stop, a) => (k + stop, a) := by
  induction n generalizing pos left with
  | zero => rfl
  | succ n ih =>
    rw [sepFrom, sepFrom, h']
    refine Trace.shift_bind _ fun r => ?_
    obtain _ | ⟨after, join⟩ := r
    · rfl
    · change f (k + after) >>= _ = _
      rw [h]
      refine Trace.shift_bind _ fun r => ?_
      obtain _ | ⟨next, right⟩ := r
      · rfl
      · exact ih next (join left right)

theorem rounds_shift (pos : Nat) : rounds ts (k + pos) = rounds (ts.drop k) pos := by
  simp only [rounds, Array.size_extract]
  omega

theorem runWith_shift (hk : k ≤ ts.size)
    {enter enter' : {α : Type} → Parser τ α → Nat → Trace (Reply α)}
    (henter : ∀ {α : Type} (p : Parser τ α) pos,
      enter p (k + pos) = (enter' p pos).shift k (Reply.shift k)) (p : Parser τ α) (pos : Nat) :
    runWith rules ts enter p (k + pos) =
      (runWith rules (ts.drop k) enter' p pos).shift k (Reply.shift k) := by
  induction p generalizing pos with
  | token text tag => exact congrArg pure (tokenAt_shift pos _)
  | tagged tag => exact congrArg pure (tokenAt_shift pos _)
  | seq p q ihp ihq =>
    rw [runWith, runWith, ihp]
    refine Trace.shift_bind _ fun r => ?_
    obtain _ | ⟨next, a⟩ := r
    · rfl
    · change runWith rules ts enter q (k + next) >>= _ = _
      rw [ihq]
      refine Trace.shift_bind _ fun r => ?_
      cases r <;> rfl
  | alt p q ihp ihq =>
    rw [runWith, runWith, ihp]
    refine Trace.shift_bind _ fun r => ?_
    cases r with
    | none => exact ihq pos
    | some found => rfl
  | opt p ih | map f p ih =>
    rw [runWith, runWith, ih]
    refine Trace.shift_bind _ fun r => ?_
    cases r <;> rfl
  | filterMap f p ih =>
    rw [runWith, runWith, ih]
    refine Trace.shift_bind _ fun r => ?_
    obtain _ | ⟨stop, a⟩ := r
    · rfl
    · refine congrArg pure ?_
      simp only [Reply.shift, Option.map_some, Option.bind_some]
      cases f a <;> rfl
  | many p ih =>
    rw [runWith, runWith, rounds_shift, repeatFrom_shift ih]
    exact Trace.shift_bind _ fun _ => rfl
  | sepBy p s ihp ihs =>
    rw [runWith, runWith, ihp]
    refine Trace.shift_bind _ fun r => ?_
    obtain _ | ⟨next, a⟩ := r
    · rfl
    · change sepFrom _ _ (rounds ts (k + next)) (k + next) a >>= _ = _
      rw [rounds_shift, sepFrom_shift ihp ihs]
      exact Trace.shift_bind _ fun _ => rfl
  | whole p ih =>
    rw [runWith, runWith, ih]
    refine Trace.shift_bind _ fun r => ?_
    refine congrArg pure ?_
    simp only [Reply.shift, Option.filter_map, Function.comp_def]
    have hend (stop : Nat) : (k + stop == ts.size) = (stop == (ts.drop k).size) := by
      rw [Bool.eq_iff_iff, beq_iff_eq, beq_iff_eq, Array.size_extract]
      omega
    simp only [hend]
  | probe name p ih =>
    rw [runWith, runWith, ih]
    refine Trace.shift_bind _ fun r => ?_
    cases r <;> rfl
  | delay p => exact henter p pos
  | rule i => exact henter (rules i) pos

theorem enter_shift (hk : k ≤ ts.size) (depth : Nat) (p : Parser τ α) (pos : Nat) :
    enter rules ts depth p (k + pos) =
      (enter rules (ts.drop k) depth p pos).shift k (Reply.shift k) := by
  induction depth generalizing α pos with
  | zero => rfl
  | succ depth ih => exact runWith_shift hk (fun p pos => ih p pos) p pos

theorem run_shift (hk : k ≤ ts.size) (depth : Nat) (p : Parser τ α) (pos : Nat) :
    run rules ts depth p (k + pos) =
      (run rules (ts.drop k) depth p pos).shift k (Reply.shift k) :=
  runWith_shift hk (fun p pos => enter_shift hk depth p pos) p pos

theorem replies_shift (hk : k ≤ ts.size) {depth : Nat} {p : Parser τ α} (pos : Nat) (r : Reply α) :
    Replies rules ts depth p (k + pos) (Reply.shift k r) ↔
      Replies rules (ts.drop k) depth p pos r := by
  rw [Replies, run_shift hk, Trace.value?_shift, Option.map_eq_some_iff]
  constructor
  · rintro ⟨r', hr', h⟩
    exact Reply.shift_injective k h ▸ hr'
  · intro h
    exact ⟨r, h, rfl⟩

/-- The tokens in front of the position do not show in the run of the parser from there, but in the
positions. -/
structure NeverLooksBack (rules : Rules τ) (ts : Array Token) (p : Parser τ α) (pos : Nat) :
    Prop where
  run_eq : ∀ depth, run rules ts depth p pos =
    (run rules (ts.drop pos) depth p 0).shift pos (Reply.shift pos)
  settles : ∃ enough calls r, ∀ depth, enough ≤ depth →
    run rules (ts.drop pos) depth p 0 = some (calls, r) ∧
      run rules ts depth p pos = some (calls.map (Call.shift pos), Reply.shift pos r)
  some_iff : ∀ depth n v, Replies rules ts depth p pos (some (pos + n, v)) ↔
    Replies rules (ts.drop pos) depth p 0 (some (n, v))
  none_iff : ∀ depth, Replies rules ts depth p pos none ↔
    Replies rules (ts.drop pos) depth p 0 none

theorem WellFormed.neverLooksBack {used : ι → Prop} {p : Parser τ α} {pos : Nat}
    (hp : WellFormed rules used p) (h : pos ≤ ts.size) : NeverLooksBack rules ts p pos where
  run_eq depth := run_shift h depth p 0
  settles := by
    obtain ⟨enough, ⟨calls, r⟩, hrun⟩ := hp.settles (ts.drop pos) 0
    refine ⟨enough, calls, r, fun depth hd => ⟨hrun depth hd, ?_⟩⟩
    have hshift : run rules ts depth p pos = _ := run_shift h depth p 0
    rw [hshift, show run rules (ts.drop pos) depth p 0 = _ from hrun depth hd]
    rfl
  some_iff _ n v := replies_shift h 0 (some (n, v))
  none_iff _ := replies_shift h 0 none

/-- The parser without the probes in it. -/
def unprobed : {α : Type} → Parser τ α → Parser τ α
  | _, token text tag => token text tag
  | _, tagged tag => tagged tag
  | _, seq p q => seq p.unprobed q.unprobed
  | _, alt p q => alt p.unprobed q.unprobed
  | _, opt p => opt p.unprobed
  | _, many p => many p.unprobed
  | _, map f p => map f p.unprobed
  | _, filterMap f p => filterMap f p.unprobed
  | _, sepBy p s => sepBy p.unprobed s.unprobed
  | _, whole p => whole p.unprobed
  | _, probe _ p => p.unprobed
  | _, delay p => delay p.unprobed
  | _, rule i => rule i

variable {c : ι → Bool}

theorem consumes_unprobed (p : Parser τ α) : consumes c p.unprobed = consumes c p := by
  induction p with
  | token | tagged | opt | many | rule => rfl
  | seq p q ihp ihq | alt p q ihp ihq => rw [unprobed, consumes, consumes, ihp, ihq]
  | map f p ih | filterMap f p ih | whole p ih | delay p ih => rw [unprobed, consumes, consumes, ih]
  | sepBy p s ih _ => rw [unprobed, consumes, consumes, ih]
  | probe name p ih => rw [unprobed, consumes, ih]

theorem guarded_unprobed (p : Parser τ α) (behind : Bool) :
    guarded c behind p.unprobed = guarded c behind p := by
  induction p generalizing behind with
  | token | tagged | rule => rfl
  | seq p q ihp ihq => rw [unprobed, guarded, guarded, ihp, ihq, consumes_unprobed]
  | alt p q ihp ihq => rw [unprobed, guarded, guarded, ihp, ihq]
  | many p ih => rw [unprobed, guarded, guarded, ih, consumes_unprobed]
  | sepBy p s ihp ihs =>
    rw [unprobed, guarded, guarded, ihp, ihs, consumes_unprobed, consumes_unprobed]
  | opt p ih | map f p ih | filterMap f p ih | whole p ih | delay p ih =>
    rw [unprobed, guarded, guarded, ih]
  | probe name p ih => rw [unprobed, guarded, ih]

theorem Headway.of_unprobed {probed : Rules τ} (hr : Headway c rules)
    (h : ∀ i, (probed i).unprobed = rules i) : Headway c probed where
  consumes i hi := by
    rw [← consumes_unprobed, h]
    exact hr.consumes i hi
  guarded i := by
    rw [← guarded_unprobed, h]
    exact hr.guarded i

/-- The parser never looks back, nor does any call that is made inside it. -/
structure NoCallLooksBack (rules : Rules τ) (ts : Array Token) (p : Parser τ α) (pos : Nat) :
    Prop where
  plain : NeverLooksBack rules ts p pos
  /-- Wherever probes are put in the parser and in the rules to see the calls. -/
  probed : ∀ (probed : Rules τ) (q : Parser τ α), (∀ i, (probed i).unprobed = rules i) →
    q.unprobed = p → NeverLooksBack probed ts q pos

theorem noCallLooksBack_of_guarded (hr : Headway c rules) {p : Parser τ α}
    (hp : guarded c false p = true) {pos : Nat} (h : pos ≤ ts.size) :
    NoCallLooksBack rules ts p pos where
  plain := (wellFormed_of_guarded hr hp).neverLooksBack h
  probed := by
    rintro probed q hprobed rfl
    rw [guarded_unprobed] at hp
    exact (wellFormed_of_guarded (hr.of_unprobed hprobed) hp).neverLooksBack h

end Parser

end ImpLang
