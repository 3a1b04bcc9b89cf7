import ImpLang.Proofs.Parser.Replies

namespace ImpLang

abbrev Trace.Extends {α : Type} (x y : Trace α) : Prop := x.Refines (· = ·) y

namespace Trace.Extends

variable {α β : Type} {x y : Trace α} {f g : α → Trace β}

theorem refl (x : Trace α) : x.Extends x := fun _ a h => ⟨a, h, rfl⟩

theorem bind (hx : x.Extends y) (hf : ∀ a, (f a).Extends (g a)) :
    (x >>= f).Extends (y >>= g) := by
  refine Refines.bind hx fun a b hab => ?_
  subst hab
  exact hf a

theorem bind_left (hx : x.Extends y) : (x >>= f).Extends (y >>= f) := hx.bind fun a => refl (f a)

end Trace.Extends

namespace Parser

variable {ι : Type} {τ : ι → Type} {α β : Type}

/-- The second parser is the first one with some of its delayed parsers and rules replaced by the
parsers that they build, and these treated in the same way. -/
inductive Unfolds (rules : Rules τ) : {α : Type} → Parser τ α → Parser τ α → Prop where
  | token (text : String) (tag : Tag) : Unfolds rules (token text tag) (token text tag)
  | tagged (tag : Tag) : Unfolds rules (tagged tag) (tagged tag)
  | seq {α β : Type} {p p' : Parser τ α} {q q' : Parser τ β} (hp : Unfolds rules p p')
    (hq : Unfolds rules q q') : Unfolds rules (seq p q) (seq p' q')
  | alt {α : Type} {p p' q q' : Parser τ α} (hp : Unfolds rules p p') (hq : Unfolds rules q q') :
    Unfolds rules (alt p q) (alt p' q')
  | opt {α : Type} {p p' : Parser τ α} (hp : Unfolds rules p p') : Unfolds rules (opt p) (opt p')
  | many {α : Type} {p p' : Parser τ α} (hp : Unfolds rules p p') :
    Unfolds rules (many p) (many p')
  | map {α β : Type} (f : α → β) {p p' : Parser τ α} (hp : Unfolds rules p p') :
    Unfolds rules (map f p) (map f p')
  | filterMap {α β : Type} (f : α → Option β) {p p' : Parser τ α} (hp : Unfolds rules p p') :
    Unfolds rules (filterMap f p) (filterMap f p')
  | sepBy {α : Type} {p p' : Parser τ α} {s s' : Parser τ (α → α → α)} (hp : Unfolds rules p p')
    (hs : Unfolds rules s s') : Unfolds rules (sepBy p s) (sepBy p' s')
  | whole {α : Type} {p p' : Parser τ α} (hp : Unfolds rules p p') :
    Unfolds rules (whole p) (whole p')
  | probe {α : Type} (name : String) {p p' : Parser τ α} (hp : Unfolds rules p p') :
    Unfolds rules (probe name p) (probe name p')
  | delay {α : Type} {p p' : Parser τ α} (hp : Unfolds rules p p') :
    Unfolds rules (delay p) (delay p')
  | rule (i : ι) : Unfolds rules (rule i) (rule i)
  | built {α : Type} {p p' : Parser τ α} (hp : Unfolds rules p p') : Unfolds rules (delay p) p'
  | called {i : ι} {p' : Parser τ (τ i)} (hp : Unfolds rules (rules i) p') :
    Unfolds rules (rule i) p'

variable {rules rules' : Rules τ} {ts : Array Token}

theorem Unfolds.refl (p : Parser τ α) : Unfolds rules p p := by
  induction p with
  | token text tag => exact .token text tag
  | tagged tag => exact .tagged tag
  | seq p q ihp ihq => exact .seq ihp ihq
  | alt p q ihp ihq => exact .alt ihp ihq
  | opt p ih => exact .opt ih
  | many p ih => exact .many ih
  | map f p ih => exact .map f ih
  | filterMap f p ih => exact .filterMap f ih
  | sepBy p s ihp ihs => exact .sepBy ihp ihs
  | whole p ih => exact .whole ih
  | probe name p ih => exact .probe name ih
  | delay p ih => exact .delay ih
  | rule i => exact .rule i

theorem repeatFrom_extends {f g : Nat → Trace (Reply α)} (h : ∀ pos, (f pos).Extends (g pos))
    (n pos : Nat) : (repeatFrom f n pos).Extends (repeatFrom g n pos) := by
  induction n generalizing pos with
  | zero => exact .refl _
  | succ n ih =>
    refine (h pos).bind fun r => ?_
    match r with
    | none => exact .refl _
    | some (next, a) => exact Trace.Extends.bind_left (ih next)

theorem sepFrom_extends {f f' : Nat → Trace (Reply α)} {g g' : Nat → Trace (Reply (α → α → α))}
    (hf : ∀ pos, (f pos).Extends (f' pos)) (hg : ∀ pos, (g pos).Extends (g' pos)) (n pos : Nat)
    (left : α) : (sepFrom f g n pos left).Extends (sepFrom f' g' n pos left) := by
  induction n generalizing pos left with
  | zero => exact .refl _
  | succ n ih =>
    refine (hg pos).bind fun r => ?_
    match r with
    | none => exact .refl _
    | some (after, join) =>
      refine (hf after).bind fun r => ?_
      match r with
      | none => exact .refl _
      | some (next, right) => exact ih next (join left right)

/-- A run of a parser is also one of the parser with its parts replaced, at the same depth and at
any greater one. -/
theorem Unfolds.extends (hrules : ∀ i, Unfolds rules (rules i) (rules' i)) {p p' : Parser τ α}
    (h : Unfolds rules p p') {depth depth' : Nat} (hd : depth ≤ depth') (pos : Nat) :
    (run rules ts depth p pos).Extends (run rules' ts depth' p' pos) := by
  induction depth using Nat.strongRecOn generalizing α p p' depth' pos with
  | ind depth enter =>
    induction h generalizing pos with
    | token | tagged => exact .refl _
    | seq hp hq ihp ihq =>
      refine (ihp pos).bind fun r => ?_
      match r with
      | none => exact .refl _
      | some (next, a) => exact (ihq next).bind_left
    | alt hp hq ihp ihq =>
      refine (ihp pos).bind fun r => ?_
      match r with
      | none => exact ihq pos
      | some found => exact .refl _
    | opt hp ih | map f hp ih | filterMap f hp ih | whole hp ih | probe name hp ih =>
      exact (ih pos).bind_left
    | many hp ih => exact (repeatFrom_extends ih _ pos).bind_left
    | sepBy hp hs ihp ihs =>
      refine (ihp pos).bind fun r => ?_
      match r with
      | none => exact .refl _
      | some (next, a) => exact (sepFrom_extends ihp ihs _ next a).bind_left
    | delay hp =>
      match depth, depth', hd with
      | 0, _, _ => exact .diverge _
      | depth + 1, depth' + 1, hd =>
        exact enter depth (Nat.lt_succ_self depth) hp (Nat.le_of_succ_le_succ hd) pos
    | rule i =>
      match depth, depth', hd with
      | 0, _, _ => exact .diverge _
      | depth + 1, depth' + 1, hd =>
        exact enter depth (Nat.lt_succ_self depth) (hrules i) (Nat.le_of_succ_le_succ hd) pos
    | built hp =>
      match depth with
      | 0 => exact .diverge _
      | depth + 1 =>
        exact enter depth (Nat.lt_succ_self depth) hp (Nat.le_of_succ_le hd) pos
    | called hp =>
      match depth with
      | 0 => exact .diverge _
      | depth + 1 =>
        exact enter depth (Nat.lt_succ_self depth) hp (Nat.le_of_succ_le hd) pos

theorem run_mono {p : Parser τ α} {depth depth' pos : Nat} {result : List Call × Reply α}
    (hd : depth ≤ depth') (h : run rules ts depth p pos = some result) :
    run rules ts depth' p pos = some result := by
  obtain ⟨r, hr, rfl⟩ := (Unfolds.refl p).extends (fun i => .refl (rules i)) hd pos h
  exact hr

end Parser

end ImpLang
