import ImpLang.Proofs.Parser.Cells

namespace ImpLang.Cells

variable {ι : Type} {τ : ι → Type} {α β : Type} {rules : Rules τ} {ts : Array Token}
  {depth pos : Nat}

/-- From all valid cells, and at any depth that is enough, the call gives the value after the calls,
and visits the places. -/
def Follows (rules : Rules τ) (p : Parser τ α) {ρ : Type} (enough : Nat)
    (call : Nat → Cells p → Trace (Visit (Cells p) ρ)) (calls : List Call) (v : ρ)
    (V : Set Place) : Prop :=
  ∀ c, c.Valid rules → ∃ c' built,
    (∀ depth, enough ≤ depth → call depth c = some (calls, ⟨v, c', built⟩)) ∧
      c'.Valid rules ∧ Grows V c.filled c'.filled built

def Faithful (rules : Rules τ) (ts : Array Token) (depth : Nat) (p : Parser τ α) : Prop :=
  ∀ ⦃pos calls r⦄, Parser.run rules ts depth p pos = some (calls, r) →
    ∃ V, Follows rules p depth (run rules ts · · pos) calls r V

theorem Faithful.repeats {p : Parser τ α} (hp : Faithful rules ts depth p) {n : Nat}
    {calls : List Call} {found : Nat × List α}
    (h : Parser.repeatFrom (Parser.run rules ts depth p) n pos = some (calls, found)) :
    ∃ V, Follows rules p depth (fun d c => repeatFrom (run rules ts d) n c pos) calls found V := by
  induction n generalizing pos calls found with
  | zero => cases h
  | succ n ih =>
    obtain ⟨before, r, after, hr, h, rfl⟩ := Trace.bind_eq_some_iff.1 h
    obtain ⟨V, hV⟩ := hp hr
    match r with
    | none =>
      cases h
      refine ⟨V, fun c hc => ?_⟩
      obtain ⟨c', k, hk, hc', hg⟩ := hV c hc
      refine ⟨c', k, fun deep hd => ?_, hc', hg⟩
      exact Trace.bind_eq_some_iff.2 ⟨_, _, _, hk deep hd, rfl, rfl⟩
    | some (next, a) =>
      obtain ⟨others, ⟨stop, as⟩, last, hrest, hend, rfl⟩ := Trace.bind_eq_some_iff.1 h
      cases hend
      obtain ⟨W, hW⟩ := ih hrest
      refine ⟨V ∪ W, fun c hc => ?_⟩
      obtain ⟨c', k, hk, hc', hg⟩ := hV c hc
      obtain ⟨c'', l, hl, hc'', hg'⟩ := hW c' hc'
      refine ⟨c'', k ++ l, fun deep hd => ?_, hc'', hg.trans hg'⟩
      refine Trace.bind_eq_some_iff.2 ⟨_, _, _, hk deep hd, ?_, rfl⟩
      exact Trace.bind_eq_some_iff.2 ⟨_, _, _, hl deep hd, rfl, rfl⟩

theorem Faithful.joins {p : Parser τ α} {s : Parser τ (α → α → α)}
    (hp : Faithful rules ts depth p) (hs : Faithful rules ts depth s) {n : Nat} {left : α}
    {calls : List Call} {found : Nat × α}
    (h : Parser.sepFrom (Parser.run rules ts depth p) (Parser.run rules ts depth s) n pos left =
      some (calls, found)) :
    ∃ V, Follows rules (.sepBy p s) depth
      (fun d C => sepFrom (run rules ts d) (run rules ts d) n C pos left) calls found V := by
  induction n generalizing pos left calls with
  | zero => cases h
  | succ n ih =>
    obtain ⟨before, r, after, hr, h, rfl⟩ := Trace.bind_eq_some_iff.1 h
    obtain ⟨V, hV⟩ := hs hr
    match r with
    | none =>
      cases h
      refine ⟨fork ∅ V, fun C hC => ?_⟩
      obtain ⟨c, d, rfl⟩ := C.parts
      obtain ⟨d', k, hk, hd', hg⟩ := hV d hC.2
      refine ⟨sepBy c d', _, fun deep hd => ?_, ⟨hC.1, hd'⟩, hg.second⟩
      exact Trace.bind_eq_some_iff.2 ⟨_, _, _, hk deep hd, rfl, rfl⟩
    | some (next, join) =>
      obtain ⟨others, r, last, hr, h, rfl⟩ := Trace.bind_eq_some_iff.1 h
      obtain ⟨W, hW⟩ := hp hr
      match r with
      | none =>
        cases h
        refine ⟨fork ∅ V ∪ fork W ∅, fun C hC => ?_⟩
        obtain ⟨c, d, rfl⟩ := C.parts
        obtain ⟨d', k, hk, hd', hg⟩ := hV d hC.2
        obtain ⟨c', l, hl, hc', hg'⟩ := hW c hC.1
        refine ⟨sepBy c' d', _, fun deep hd => ?_, ⟨hc', hd'⟩, hg.second.trans hg'.first⟩
        refine Trace.bind_eq_some_iff.2 ⟨_, _, _, hk deep hd, ?_, rfl⟩
        exact Trace.bind_eq_some_iff.2 ⟨_, _, _, hl deep hd, rfl, rfl⟩
      | some (next, right) =>
        obtain ⟨U, hU⟩ := ih h
        refine ⟨fork ∅ V ∪ fork W ∅ ∪ U, fun C hC => ?_⟩
        obtain ⟨c, d, rfl⟩ := C.parts
        obtain ⟨d', k, hk, hd', hg⟩ := hV d hC.2
        obtain ⟨c', l, hl, hc', hg'⟩ := hW c hC.1
        obtain ⟨C', m, hm, hC', hg''⟩ := hU (sepBy c' d') ⟨hc', hd'⟩
        refine ⟨C', _, fun deep hd => ?_, hC', (hg.second.trans hg'.first).trans hg''⟩
        refine Trace.bind_eq_some_iff.2 ⟨_, _, _, hk deep hd, ?_, rfl⟩
        refine Trace.bind_eq_some_iff.2 ⟨_, _, _, hl deep hd, ?_, rfl⟩
        exact Trace.bind_eq_some_iff.2 ⟨_, _, _, hm deep hd, rfl, (List.append_nil _).symm⟩

theorem enter_of_run {p : Parser τ α} {c : Cells p} {x : Trace (Visit (Cells p) (Reply α))}
    (h : ∀ d, depth ≤ d → run rules ts d c pos = x) (d : Nat) (hd : depth + 1 ≤ d) :
    enter rules ts d p c pos = x := by
  obtain ⟨d, rfl⟩ : ∃ e, d = e + 1 := ⟨d - 1, by omega⟩
  exact h d (Nat.le_of_succ_le_succ hd)

theorem Faithful.seq {p : Parser τ α} {q : Parser τ β} (hp : Faithful rules ts depth p)
    (hq : Faithful rules ts depth q) : Faithful rules ts depth (.seq p q) := by
  rintro pos calls r h
  obtain ⟨before, r, after, hr, h, rfl⟩ := Trace.bind_eq_some_iff.1 h
  obtain ⟨V, hV⟩ := hp hr
  match r with
  | none =>
    cases h
    refine ⟨fork V ∅, fun C hC => ?_⟩
    obtain ⟨c, d, rfl⟩ := C.parts
    obtain ⟨c', k, hk, hc', hg⟩ := hV c hC.1
    refine ⟨.seq c' d, _, fun deep hd => ?_, ⟨hc', hC.2⟩, hg.first⟩
    exact Trace.bind_eq_some_iff.2 ⟨_, _, _, hk deep hd, rfl, rfl⟩
  | some (next, a) =>
    obtain ⟨others, r, last, hr, hend, rfl⟩ := Trace.bind_eq_some_iff.1 h
    cases hend
    obtain ⟨W, hW⟩ := hq hr
    refine ⟨fork V ∅ ∪ fork ∅ W, fun C hC => ?_⟩
    obtain ⟨c, d, rfl⟩ := C.parts
    obtain ⟨c', k, hk, hc', hg⟩ := hV c hC.1
    obtain ⟨d', l, hl, hd', hg'⟩ := hW d hC.2
    refine ⟨.seq c' d', _, fun deep hd => ?_, ⟨hc', hd'⟩, hg.first.trans hg'.second⟩
    refine Trace.bind_eq_some_iff.2 ⟨_, _, _, hk deep hd, ?_, rfl⟩
    exact Trace.bind_eq_some_iff.2 ⟨_, _, _, hl deep hd, rfl, rfl⟩

theorem Faithful.alt {p q : Parser τ α} (hp : Faithful rules ts depth p)
    (hq : Faithful rules ts depth q) : Faithful rules ts depth (.alt p q) := by
  rintro pos calls r h
  obtain ⟨before, r, after, hr, h, rfl⟩ := Trace.bind_eq_some_iff.1 h
  obtain ⟨V, hV⟩ := hp hr
  match r with
  | none =>
    obtain ⟨W, hW⟩ := hq h
    refine ⟨fork V ∅ ∪ fork ∅ W, fun C hC => ?_⟩
    obtain ⟨c, d, rfl⟩ := C.parts
    obtain ⟨c', k, hk, hc', hg⟩ := hV c hC.1
    obtain ⟨d', l, hl, hd', hg'⟩ := hW d hC.2
    refine ⟨.alt c' d', _, fun deep hd => ?_, ⟨hc', hd'⟩, hg.first.trans hg'.second⟩
    refine Trace.bind_eq_some_iff.2 ⟨_, _, _, hk deep hd, ?_, rfl⟩
    exact Trace.bind_eq_some_iff.2 ⟨_, _, _, hl deep hd, rfl, (List.append_nil _).symm⟩
  | some found =>
    cases h
    refine ⟨fork V ∅, fun C hC => ?_⟩
    obtain ⟨c, d, rfl⟩ := C.parts
    obtain ⟨c', k, hk, hc', hg⟩ := hV c hC.1
    refine ⟨.alt c' d, _, fun deep hd => ?_, ⟨hc', hC.2⟩, hg.first⟩
    exact Trace.bind_eq_some_iff.2 ⟨_, _, _, hk deep hd, rfl, rfl⟩

theorem Faithful.opt {p : Parser τ α} (hp : Faithful rules ts depth p) :
    Faithful rules ts depth (.opt p) := by
  rintro pos calls r h
  obtain ⟨before, r, after, hr, h, rfl⟩ := Trace.bind_eq_some_iff.1 h
  obtain ⟨V, hV⟩ := hp hr
  refine ⟨V, fun C hC => ?_⟩
  obtain ⟨c, rfl⟩ := C.parts
  obtain ⟨c', k, hk, hc', hg⟩ := hV c hC
  refine ⟨.opt c', k, fun deep hd => ?_, hc', hg⟩
  refine Trace.bind_eq_some_iff.2 ⟨_, _, _, hk deep hd, ?_, rfl⟩
  cases r <;> cases h <;> rfl

theorem Faithful.many {p : Parser τ α} (hp : Faithful rules ts depth p) :
    Faithful rules ts depth (.many p) := by
  rintro pos calls r h
  obtain ⟨before, found, after, hr, hend, rfl⟩ := Trace.bind_eq_some_iff.1 h
  cases hend
  obtain ⟨V, hV⟩ := hp.repeats hr
  refine ⟨V, fun C hC => ?_⟩
  obtain ⟨c, rfl⟩ := C.parts
  obtain ⟨c', k, hk, hc', hg⟩ := hV c hC
  refine ⟨.many c', k, fun deep hd => ?_, hc', hg⟩
  exact Trace.bind_eq_some_iff.2 ⟨_, _, _, hk deep hd, rfl, rfl⟩

theorem Faithful.sepBy {p : Parser τ α} {s : Parser τ (α → α → α)}
    (hp : Faithful rules ts depth p) (hs : Faithful rules ts depth s) :
    Faithful rules ts depth (.sepBy p s) := by
  rintro pos calls r h
  obtain ⟨before, r, after, hr, h, rfl⟩ := Trace.bind_eq_some_iff.1 h
  obtain ⟨V, hV⟩ := hp hr
  match r with
  | none =>
    cases h
    refine ⟨fork V ∅, fun C hC => ?_⟩
    obtain ⟨c, d, rfl⟩ := C.parts
    obtain ⟨c', k, hk, hc', hg⟩ := hV c hC.1
    refine ⟨.sepBy c' d, _, fun deep hd => ?_, ⟨hc', hC.2⟩, hg.first⟩
    exact Trace.bind_eq_some_iff.2 ⟨_, _, _, hk deep hd, rfl, rfl⟩
  | some (next, a) =>
    obtain ⟨others, found, last, hr, hend, rfl⟩ := Trace.bind_eq_some_iff.1 h
    cases hend
    obtain ⟨W, hW⟩ := hp.joins hs hr
    refine ⟨fork V ∅ ∪ W, fun C hC => ?_⟩
    obtain ⟨c, d, rfl⟩ := C.parts
    obtain ⟨c', k, hk, hc', hg⟩ := hV c hC.1
    obtain ⟨C', l, hl, hC', hg'⟩ := hW (.sepBy c' d) ⟨hc', hC.2⟩
    refine ⟨C', _, fun deep hd => ?_, hC', hg.first.trans hg'⟩
    refine Trace.bind_eq_some_iff.2 ⟨_, _, _, hk deep hd, ?_, rfl⟩
    exact Trace.bind_eq_some_iff.2 ⟨_, _, _, hl deep hd, rfl, rfl⟩

theorem Faithful.delay {p : Parser τ α} (hp : Faithful rules ts depth p) :
    Faithful rules ts (depth + 1) (.delay p) := by
  rintro pos calls r h
  obtain ⟨V, hV⟩ := hp h
  refine ⟨cell V, fun C hC => ?_⟩
  -- An empty cell is filled with what it is asked for; a filled one holds it, as it is valid.
  obtain rfl | ⟨held, c, rfl⟩ := C.parts
  · obtain ⟨c', k, hk, hc', hg⟩ := hV (fresh p) (valid_fresh p)
    rw [filled_fresh] at hg
    refine ⟨.ready p c', _, fun deep hd => ?_, ⟨rfl, hc'⟩, hg.filling⟩
    have hentered := enter_of_run hk deep hd
    exact Trace.bind_eq_some_iff.2 ⟨_, _, _, hentered, rfl, (List.append_nil _).symm⟩
  · obtain ⟨rfl, hc⟩ := hC
    obtain ⟨c', k, hk, hc', hg⟩ := hV c hc
    refine ⟨.ready held c', _, fun deep hd => ?_, ⟨rfl, hc'⟩, hg.again⟩
    have hentered := enter_of_run hk deep hd
    exact Trace.bind_eq_some_iff.2 ⟨_, _, _, hentered, rfl, (List.append_nil _).symm⟩

theorem Faithful.rule {i : ι} (hi : Faithful rules ts depth (rules i)) :
    Faithful rules ts (depth + 1) (.rule i) := by
  rintro pos calls r h
  obtain ⟨V, hV⟩ := hi h
  refine ⟨cell V, fun C hC => ?_⟩
  obtain rfl | ⟨held, c, rfl⟩ := C.parts
  · obtain ⟨c', k, hk, hc', hg⟩ := hV (fresh (rules i)) (valid_fresh (rules i))
    rw [filled_fresh] at hg
    refine ⟨.read (rules i) c', _, fun deep hd => ?_, ⟨rfl, hc'⟩, hg.filling⟩
    have hentered := enter_of_run hk deep hd
    exact Trace.bind_eq_some_iff.2 ⟨_, _, _, hentered, rfl, (List.append_nil _).symm⟩
  · obtain ⟨rfl, hc⟩ := hC
    obtain ⟨c', k, hk, hc', hg⟩ := hV c hc
    refine ⟨.read (rules i) c', _, fun deep hd => ?_, ⟨rfl, hc'⟩, hg.again⟩
    have hentered := enter_of_run hk deep hd
    exact Trace.bind_eq_some_iff.2 ⟨_, _, _, hentered, rfl, (List.append_nil _).symm⟩

theorem faithful (rules : Rules τ) (ts : Array Token) (depth : Nat) (p : Parser τ α) :
    Faithful rules ts depth p := by
  induction depth using Nat.strongRecOn generalizing α with
  | ind depth enter =>
    induction p with
    | token text tag | tagged tag =>
      rintro pos calls r h
      cases h
      refine ⟨∅, fun C hC => ?_⟩
      obtain rfl := C.parts
      exact ⟨_, _, fun _ _ => rfl, trivial, .refl _⟩
    | seq p q ihp ihq => exact ihp.seq ihq
    | alt p q ihp ihq => exact ihp.alt ihq
    | opt p ih => exact ih.opt
    | many p ih => exact ih.many
    | map f p ih | filterMap f p ih | whole p ih | probe name p ih =>
      rintro pos calls r h
      obtain ⟨before, r, after, hr, hend, rfl⟩ := Trace.bind_eq_some_iff.1 h
      cases hend
      obtain ⟨V, hV⟩ := ih hr
      refine ⟨V, fun C hC => ?_⟩
      obtain ⟨c, rfl⟩ := C.parts
      obtain ⟨c', k, hk, hc', hg⟩ := hV c hC
      exact ⟨_, k, fun deep hd => Trace.bind_eq_some_iff.2 ⟨_, _, _, hk deep hd, rfl, rfl⟩, hc', hg⟩
    | sepBy p s ihp ihs => exact ihp.sepBy ihs
    | delay p =>
      match depth with
      | 0 =>
        intro pos calls r h
        cases h
      | depth + 1 => exact (enter depth (Nat.lt_succ_self depth) p).delay
    | rule i =>
      match depth with
      | 0 =>
        intro pos calls r h
        cases h
      | depth + 1 => exact (enter depth (Nat.lt_succ_self depth) (rules i)).rule

end ImpLang.Cells
