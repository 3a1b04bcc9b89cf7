import ImpLang.Proofs.Parser.Termination

namespace ImpLang.Parser

variable {ι : Type} {τ : ι → Type} {α β : Type}

/-- The elements behind the first one, each with what its separator says, joined from the left. -/
def joinAll (first : α) (pairs : List ((α → α → α) × α)) : α :=
  pairs.foldl (fun left pair => pair.1 left pair.2) first

/-- An element, then pairs of a separator and an element in any number. -/
def elementThenPairs (e : Parser τ α) (s : Parser τ (α → α → α)) : Parser τ α :=
  .map (fun (first, pairs) => joinAll first pairs) (.seq e (.many (.seq s e)))

inductive Iterates (rules : Rules τ) (ts : Array Token) (depth : Nat) (p : Parser τ α) :
    Nat → List α → Nat → Prop where
  | done {pos : Nat} (h : Replies rules ts depth p pos none) : Iterates rules ts depth p pos [] pos
  | step {pos next stop : Nat} {a : α} {as : List α}
    (h : Replies rules ts depth p pos (some (next, a)))
    (rest : Iterates rules ts depth p next as stop) :
    Iterates rules ts depth p pos (a :: as) stop

variable {rules : Rules τ} {ts : Array Token} {depth pos stop : Nat}

theorem Repeats.iterates {p : Parser τ α} {n : Nat} {found : Nat × List α}
    (h : Repeats rules ts depth p n pos found) : Iterates rules ts depth p pos found.2 found.1 := by
  induction h with
  | done h => exact .done h
  | step h _ ih => exact .step h ih

theorem Iterates.repeats {p : Parser τ α} (hp : ¬ p.Nullable rules) {as : List α} {n : Nat}
    (h : Iterates rules ts depth p pos as stop) (hn : ts.size - pos < n) :
    Repeats rules ts depth p n pos (stop, as) := by
  induction h generalizing n with
  | done h =>
    cases n with
    | zero => omega
    | succ n => exact .done h
  | step h _ ih =>
    cases n with
    | zero => omega
    | succ n =>
      obtain ⟨hnull, -⟩ | hlt := h.nullable_or_lt
      · exact absurd hnull hp
      · exact .step h (ih (by omega))

theorem sepFrom_eq_repeatFrom
    (enter : {α : Type} → Parser τ α → Nat → Trace (Reply α)) (e : Parser τ α)
    (s : Parser τ (α → α → α)) (n pos : Nat) (left : α) :
    sepFrom (runWith rules ts enter e) (runWith rules ts enter s) n pos left =
      repeatFrom (runWith rules ts enter (.seq s e)) n pos >>=
        fun found => pure (found.1, joinAll left found.2) := by
  induction n generalizing pos left with
  | zero => rfl
  | succ n ih =>
    rw [sepFrom, repeatFrom, runWith]
    simp only [bind_assoc]
    refine bind_congr fun r => ?_
    obtain _ | ⟨after, join⟩ := r
    · rfl
    · simp only [bind_assoc]
      refine bind_congr fun r => ?_
      obtain _ | ⟨next, right⟩ := r
      · rfl
      · simp only [pure_bind, bind_assoc, Option.map_some, ih]
        rfl

theorem run_sepBy (e : Parser τ α) (s : Parser τ (α → α → α)) (depth pos : Nat) :
    run rules ts depth (sepBy e s) pos = run rules ts depth (elementThenPairs e s) pos := by
  rw [run, run, elementThenPairs, runWith, runWith, runWith, bind_assoc]
  refine bind_congr fun r => ?_
  obtain _ | ⟨next, first⟩ := r
  · rfl
  · simp only [runWith, sepFrom_eq_repeatFrom, bind_assoc, pure_bind]
    rfl

/-- The list is an element, then all pairs of a separator and an element that stand in a row behind
it, with the values joined from the left. -/
structure IsLeftFold (rules : Rules τ) (ts : Array Token) (e : Parser τ α)
    (s : Parser τ (α → α → α)) (pos : Nat) : Prop where
  run_eq : ∀ depth,
    run rules ts depth (sepBy e s) pos = run rules ts depth (elementThenPairs e s) pos
  /-- It calls the element and the separator themselves in the same order, at the same positions. -/
  calls_eq : ∀ m n depth, run rules ts depth (sepBy (probe m e) (probe n s)) pos =
    run rules ts depth (elementThenPairs (probe m e) (probe n s)) pos
  settles : (∀ q, Settles (run rules ts · e q)) → (∀ q, Settles (run rules ts · s q)) →
    Settles (run rules ts · (sepBy e s) pos)
  none_iff : ∀ depth, Replies rules ts depth (sepBy e s) pos none ↔
    Replies rules ts depth e pos none
  some_iff : ∀ depth stop v, Replies rules ts depth (sepBy e s) pos (some (stop, v)) ↔
    ∃ next first pairs, Replies rules ts depth e pos (some (next, first)) ∧
      Iterates rules ts depth (seq s e) next pairs stop ∧ v = joinAll first pairs

theorem replies_sepBy_none {e : Parser τ α} {s : Parser τ (α → α → α)} :
    Replies rules ts depth (sepBy e s) pos none ↔ Replies rules ts depth e pos none := by
  simp [replies_sepBy]

theorem replies_sepBy_some {e : Parser τ α} {s : Parser τ (α → α → α)}
    (h : ¬ (seq s e).Nullable rules) {v : α} :
    Replies rules ts depth (sepBy e s) pos (some (stop, v)) ↔
      ∃ next first pairs, Replies rules ts depth e pos (some (next, first)) ∧
        Iterates rules ts depth (seq s e) next pairs stop ∧ v = joinAll first pairs := by
  rw [Replies, run_sepBy, ← Replies, elementThenPairs, replies_map]
  constructor
  · rintro ⟨r, hr, heq⟩
    obtain ⟨-, rfl⟩ | ⟨next, first, r, he, hmany, rfl⟩ := replies_seq.1 hr
    · cases heq
    · obtain ⟨⟨last, pairs⟩, hpairs, rfl⟩ := replies_many.1 hmany
      cases heq
      exact ⟨next, first, pairs, he, hpairs.iterates, rfl⟩
  · rintro ⟨next, first, pairs, he, hpairs, rfl⟩
    have hmany := replies_many.2 ⟨_, hpairs.repeats h (Nat.lt_succ_self _), rfl⟩
    exact ⟨_, replies_seq.2 (.inr ⟨next, first, _, he, hmany, rfl⟩), rfl⟩

theorem settles_sepBy {e : Parser τ α} {s : Parser τ (α → α → α)}
    (h : ¬ (seq s e).Nullable rules) (he : ∀ q, Settles (run rules ts · e q))
    (hs : ∀ q, Settles (run rules ts · s q)) (pos : Nat) :
    Settles (run rules ts · (sepBy e s) pos) := by
  refine (he pos).bind fun depth calls r hr => ?_
  obtain _ | ⟨next, first⟩ := r
  · exact .pure _
  · have hefrom : SettlesFrom rules ts next e := fun q _ => he q
    have hsfrom : SettlesFrom rules ts next s := fun q _ => hs q
    exact (hefrom.joins hsfrom h (Nat.lt_succ_self _) first).bind_right fun _ => .pure _

/-- Where a separator and an element together use up a token, a list is the left fold of a
repetition, whatever the two parsers are. -/
theorem sepBy_isLeftFold (rules : Rules τ) (e : Parser τ α) (s : Parser τ (α → α → α))
    (h : ¬ (seq s e).Nullable rules) (ts : Array Token) (pos : Nat) :
    IsLeftFold rules ts e s pos where
  run_eq depth := run_sepBy e s depth pos
  calls_eq m n depth := run_sepBy (probe m e) (probe n s) depth pos
  settles he hs := settles_sepBy h he hs pos
  none_iff _ := replies_sepBy_none
  some_iff _ _ _ := replies_sepBy_some h

def optionalMinus : Parser (fun _ : Empty => String) (String → String → String) :=
  .map (fun sign left right => left ++ sign.getD " " ++ right) (.opt (.token "-" .reserved))

theorem sepBy_isLeftFold_minus :
    ¬ (seq optionalMinus (.tagged .int)).Nullable nofun ∧
      IsLeftFold nofun #[.int "1", .reserved "-", .int "2", .int "3", .reserved "-"]
        (.tagged .int) optionalMinus 0 :=
  have h : ¬ (seq optionalMinus (.tagged .int)).Nullable nofun :=
    not_nullable_of_consumes (c := nofun) ⟨nofun, nofun⟩ rfl
  ⟨h, sepBy_isLeftFold nofun (.tagged .int) optionalMinus h _ 0⟩

-- The sign at the end has no number behind it and is left alone.
example : (run nofun #[.int "1", .reserved "-", .int "2", .int "3", .reserved "-"] 0
    (sepBy (.tagged .int) optionalMinus) 0).value? = some (some (4, "1-2 3")) := rfl

end ImpLang.Parser
