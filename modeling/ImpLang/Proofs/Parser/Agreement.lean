import Mathlib.Data.List.Pairwise
import ImpLang.Proofs.Parser.Termination
import ImpLang.Parser.Precedence

namespace ImpLang

def Trace.Agrees {α : Type} (x y : Trace α) : Prop :=
  ∀ ⦃a b⦄, x.value? = some a → y.value? = some b → a = b

namespace Trace.Agrees

variable {α β : Type} {x y : Trace α} {f g : α → Trace β}

theorem refl (x : Trace α) : x.Agrees x := by
  intro a b ha hb
  exact Option.some.inj (ha.symm.trans hb)

theorem diverge (y : Trace α) : Agrees Trace.diverge y := by
  intro a b ha
  cases ha

theorem diverge_right (x : Trace α) : Agrees x Trace.diverge := by
  intro a b _ hb
  cases hb

theorem bind (hx : x.Agrees y) (hf : ∀ a, (f a).Agrees (g a)) : (x >>= f).Agrees (y >>= g) := by
  intro b b' hb hb'
  obtain ⟨a, ha, hb⟩ := value?_bind_eq_some.1 hb
  obtain ⟨a', ha', hb'⟩ := value?_bind_eq_some.1 hb'
  obtain rfl := hx ha ha'
  exact hf a hb hb'

theorem bind_left (hx : x.Agrees y) : (x >>= f).Agrees (y >>= f) := hx.bind fun a => refl (f a)

end Trace.Agrees

namespace Parser

variable {ι : Type} {τ : ι → Type} {α : Type} {rules rules' : Rules τ} {ts : Array Token}
  {depth depth' pos : Nat}

theorem repeatFrom_agrees {f g : Nat → Trace (Reply α)} (h : ∀ pos, (f pos).Agrees (g pos))
    (n pos : Nat) : (repeatFrom f n pos).Agrees (repeatFrom g n pos) := by
  induction n generalizing pos with
  | zero => exact .diverge _
  | succ n ih =>
    refine (h pos).bind fun r => ?_
    obtain _ | ⟨next, a⟩ := r
    · exact .refl _
    · exact (ih next).bind_left

theorem sepFrom_agrees {f g : Nat → Trace (Reply α)} {f' g' : Nat → Trace (Reply (α → α → α))}
    (h : ∀ pos, (f pos).Agrees (g pos)) (h' : ∀ pos, (f' pos).Agrees (g' pos)) (n pos : Nat)
    (left : α) : (sepFrom f f' n pos left).Agrees (sepFrom g g' n pos left) := by
  induction n generalizing pos left with
  | zero => exact .diverge _
  | succ n ih =>
    refine (h' pos).bind fun r => ?_
    obtain _ | ⟨after, join⟩ := r
    · exact .refl _
    · refine (h after).bind fun r => ?_
      obtain _ | ⟨next, right⟩ := r
      · exact .refl _
      · exact ih next _

def RunsAgree (rules' rules : Rules τ) (ts : Array Token) (depth' depth : Nat) (p' p : Parser τ α) :
    Prop :=
  ∀ pos, (run rules' ts depth' p' pos).Agrees (run rules ts depth p pos)

namespace RunsAgree

variable {β : Type} {p p' : Parser τ α}

theorem seq {q q' : Parser τ β} (hp : RunsAgree rules' rules ts depth' depth p' p)
    (hq : RunsAgree rules' rules ts depth' depth q' q) :
    RunsAgree rules' rules ts depth' depth (.seq p' q') (.seq p q) := by
  intro pos
  refine (hp pos).bind fun r => ?_
  obtain _ | ⟨next, a⟩ := r
  · exact .refl _
  · exact (hq next).bind_left

theorem alt {q q' : Parser τ α} (hp : RunsAgree rules' rules ts depth' depth p' p)
    (hq : RunsAgree rules' rules ts depth' depth q' q) :
    RunsAgree rules' rules ts depth' depth (.alt p' q') (.alt p q) := by
  intro pos
  refine (hp pos).bind fun r => ?_
  obtain _ | found := r
  · exact hq pos
  · exact .refl _

theorem map (f : α → β) (hp : RunsAgree rules' rules ts depth' depth p' p) :
    RunsAgree rules' rules ts depth' depth (.map f p') (.map f p) := fun pos => (hp pos).bind_left

theorem sepBy {s s' : Parser τ (α → α → α)} (hp : RunsAgree rules' rules ts depth' depth p' p)
    (hs : RunsAgree rules' rules ts depth' depth s' s) :
    RunsAgree rules' rules ts depth' depth (.sepBy p' s') (.sepBy p s) := by
  intro pos
  refine (hp pos).bind fun r => ?_
  obtain _ | ⟨next, a⟩ := r
  · exact .refl _
  · exact (sepFrom_agrees hp hs _ next a).bind_left

end RunsAgree

theorem enter_agrees {p p' : Parser τ α}
    (h : ∀ d' d, d' < depth' → RunsAgree rules' rules ts d' d p' p) (pos : Nat) :
    (enter rules' ts depth' p' pos).Agrees (enter rules ts depth p pos) := by
  match depth', depth with
  | 0, _ => exact .diverge _
  | _, 0 => exact .diverge_right _
  | d' + 1, d + 1 => exact h d' d (Nat.lt_succ_self d') pos

theorem runsAgree_of_bodies (hbodies : ∀ d' d i, d' < depth' →
    RunsAgree rules' rules ts d' d (rules' i) (rules i)) (p : Parser τ α) :
    RunsAgree rules' rules ts depth' depth p p := by
  induction depth' using Nat.strongRecOn generalizing α depth with
  | ind depth' ihdepth =>
    have inner {α : Type} (p : Parser τ α) (d' d : Nat) (hd : d' < depth') :
        RunsAgree rules' rules ts d' d p p :=
      ihdepth d' hd (fun e' e i he => hbodies e' e i (Nat.lt_trans he hd)) p
    induction p with
    | token | tagged => exact fun pos => .refl _
    | seq p q ihp ihq => exact ihp.seq ihq
    | alt p q ihp ihq => exact ihp.alt ihq
    | map f p ih => exact ih.map f
    | opt p ih | filterMap f p ih | whole p ih => exact fun pos => (ih pos).bind_left
    | probe name p ih => exact fun pos => (ih pos).bind_left
    | many p ih => exact fun pos => (repeatFrom_agrees ih _ pos).bind_left
    | sepBy p s ihp ihs => exact ihp.sepBy ihs
    | delay p => exact enter_agrees fun d' d hd => inner p d' d hd
    | rule i => exact enter_agrees fun d' d hd => hbodies d' d i hd

theorem run_agrees (hstep : ∀ d' d,
    (∀ {β : Type} (q : Parser τ β) e, RunsAgree rules' rules ts d' e q q) →
      ∀ i, RunsAgree rules' rules ts d' d (rules' i) (rules i)) (p : Parser τ α) :
    RunsAgree rules' rules ts depth' depth p p := by
  have hbodies : ∀ d' d i, RunsAgree rules' rules ts d' d (rules' i) (rules i) := by
    intro d'
    induction d' using Nat.strongRecOn with
    | ind d' ih =>
      intro d i
      refine hstep d' d (fun q e => ?_) i
      exact runsAgree_of_bodies (fun e' e i he => ih e' he e i) q
  exact runsAgree_of_bodies (fun d' d i _ => hbodies d' d i) p

theorem choice_of_alt {P : Parser τ α → Prop} (halt : ∀ p q, P p → P q → P (.alt p q))
    {first : Parser τ α} {others : List (Parser τ α)} (h : ∀ p ∈ first :: others, P p) :
    P (choice first others) := by
  induction others generalizing first with
  | nil => exact h first List.mem_cons_self
  | cons q others ih =>
    refine @ih (.alt first q) fun p hp => ?_
    obtain rfl | hp := List.mem_cons.1 hp
    · exact halt first q (h first (by simp)) (h q (by simp))
    · exact h p (by simp [hp])

/-- Not both parsers match at the position. -/
def Excludes (rules : Rules τ) (ts : Array Token) (pos : Nat) (p q : Parser τ α) : Prop :=
  ∀ depth depth' a b, Replies rules ts depth p pos (some a) →
    ¬ Replies rules ts depth' q pos (some b)

theorem exists_of_replies_choice {first : Parser τ α} {others : List (Parser τ α)} {a : Nat × α}
    (h : Replies rules ts depth (choice first others) pos (some a)) :
    ∃ p ∈ first :: others, Replies rules ts depth p pos (some a) := by
  induction others generalizing first with
  | nil => exact ⟨first, List.mem_singleton_self first, h⟩
  | cons q others ih =>
    obtain ⟨p, hp, hr⟩ := @ih (.alt first q) h
    obtain rfl | hp := List.mem_cons.1 hp
    · obtain ⟨-, hq⟩ | ⟨found, hfirst, heq⟩ := replies_alt.1 hr
      · exact ⟨q, by simp, hq⟩
      · cases heq
        exact ⟨first, by simp, hfirst⟩
    · exact ⟨p, by simp [hp], hr⟩

theorem refused_of_replies_choice {first : Parser τ α} {others : List (Parser τ α)}
    (h : Replies rules ts depth (choice first others) pos none) :
    ∀ p ∈ first :: others, Replies rules ts depth p pos none := by
  induction others generalizing first with
  | nil =>
    intro p hp
    rwa [List.mem_singleton.1 hp]
  | cons q others ih =>
    have hr := @ih (.alt first q) h
    obtain ⟨hfirst, hq⟩ | ⟨found, -, heq⟩ := replies_alt.1 (hr _ List.mem_cons_self)
    · intro p hp
      obtain rfl | hp := List.mem_cons.1 hp
      · exact hfirst
      · obtain rfl | hp := List.mem_cons.1 hp
        · exact hq
        · exact hr p (List.mem_cons_of_mem _ hp)
    · cases heq

theorem eq_of_excludes {ps : List (Parser τ α)} (h : ps.Pairwise (Excludes rules ts pos))
    {p q : Parser τ α} (hp : p ∈ ps) (hq : q ∈ ps) {a b : Nat × α}
    (ha : Replies rules ts depth p pos (some a)) (hb : Replies rules ts depth' q pos (some b)) :
    p = q := by
  have hsymm : Std.Symm (Excludes (α := α) rules ts pos) :=
    ⟨fun p q hpq depth depth' a b ha hb => hpq depth' depth b a hb ha⟩
  by_contra hne
  exact List.Pairwise.forall h hp hq hne depth depth' a b ha hb

/-- Alternatives that exclude each other may be tried in another order, also under rules under which
they have the same replies. -/
theorem choice_agrees {first first' : Parser τ α} {others others' : List (Parser τ α)}
    (hx : (first :: others).Pairwise (Excludes rules ts pos))
    (hends : ∀ p ∈ first :: others, ∃ d r, Replies rules ts d p pos r)
    (hperm : (first' :: others').Perm (first :: others))
    (h : ∀ p ∈ first :: others, ∀ d, (run rules' ts depth' p pos).Agrees (run rules ts d p pos)) :
    (run rules' ts depth' (choice first' others') pos).Agrees
      (run rules ts depth (choice first others) pos) := by
  intro r' r hr' hr
  obtain _ | a' := r'
  · obtain _ | a := r
    · rfl
    · obtain ⟨p, hp, ha⟩ := exists_of_replies_choice hr
      have hnone := refused_of_replies_choice hr' p (hperm.mem_iff.2 hp)
      cases h p hp depth hnone ha
  · obtain ⟨p, hp, ha'⟩ := exists_of_replies_choice hr'
    rw [hperm.mem_iff] at hp
    -- The parser that matches there also ends under the other rules, and so with the same reply.
    obtain ⟨d, rp, hrp⟩ := hends p hp
    obtain rfl := h p hp d ha' hrp
    obtain _ | a := r
    · have hnone := refused_of_replies_choice hr p hp
      cases (hnone.mono (Nat.le_max_left depth d)).unique (hrp.mono (Nat.le_max_right depth d))
    · obtain ⟨q, hq, ha⟩ := exists_of_replies_choice hr
      obtain rfl := eq_of_excludes hx hp hq hrp ha
      exact (hrp.mono (Nat.le_max_right depth d)).unique (ha.mono (Nat.le_max_left depth d))

end Parser

end ImpLang
