import Mathlib
import ImpLang.Proofs.Command.BigStep

namespace ImpLang

namespace Machine

section Steps

variable {T W : Type} [Number T]

inductive Reaches (sink : Sink W) : Machine T W → Machine T W → Prop where
  | refl {m} : Reaches sink m m
  | step {m next last} (h : m.step sink = .ok next) (rest : Reaches sink next last) :
      Reaches sink m last

variable {sink : Sink W} {m next last : Machine T W} {o : Outcome T W}

theorem Reaches.trans (h : Reaches sink m next) (hn : Reaches sink next last) :
    Reaches sink m last := by
  induction h with
  | refl => exact hn
  | step hs _ ih => exact .step hs (ih hn)

theorem halts_iff_reaches :
    Halts sink m o ↔ ∃ last, Reaches sink m last ∧ last.step sink = .error o := by
  constructor
  · rintro ⟨steps, h⟩
    induction steps generalizing m with
    | zero => cases h
    | succ n ih =>
      cases hs : m.step sink with
      | error o' =>
        rw [run_of_step_error hs] at h
        exact ⟨m, .refl, hs.trans (congrArg Except.error (Option.some.inj h))⟩
      | ok next =>
        rw [run_of_step_ok hs] at h
        obtain ⟨last, hr, hl⟩ := ih h
        exact ⟨last, .step hs hr, hl⟩
  · rintro ⟨last, hr, hl⟩
    induction hr with
    | refl => exact halts_of_step_error hl
    | step hs _ ih => exact halts_of_step_ok hs (ih hl)

/-- The run comes through the world, or ends in it. -/
def Visits (sink : Sink W) (m : Machine T W) (w : World T W) : Prop :=
  (∃ last, Reaches sink m last ∧ last.world = w) ∨ ∃ f, Halts sink m ⟨f, w⟩

def nextLine? (m : Machine T W) : Option String :=
  match m.calls with
  | (.print e :: _) :: _ =>
    match e.eval m.world.store with
    | .ok v => some (Number.render v)
    | .error _ => none
  | _ => none

/-- A step writes a line, or it is the same for all outputs. -/
theorem step_cases (m : Machine T W) :
    (∃ next, next.world.printed = m.world.printed ∧ ∀ sink, m.step sink = .ok next) ∨
    (∃ f, ∀ sink, m.step sink = .error ⟨f, m.world⟩) ∨
    ∃ line calls, m.nextLine? = some line ∧ ∀ sink : Sink W, m.step sink =
      match sink m.world.printed line with
      | .ok printed => .ok ⟨calls, { m.world with printed := printed }⟩
      | .error printed => .error ⟨some .output, { m.world with printed := printed }⟩ := by
  obtain ⟨_ | ⟨_ | ⟨c, rest⟩, calls⟩, w⟩ := m
  · exact .inr (.inl ⟨none, fun _ => rfl⟩)
  · exact .inl ⟨⟨calls, w⟩, rfl, fun _ => step_return⟩
  cases c with
  | assign x e =>
    cases hv : e.eval w.store with
    | ok v =>
      exact .inl ⟨⟨rest :: calls, { w with store := w.store.insert x v }⟩, rfl,
        fun _ => by rw [step_assign, hv]⟩
    | error f => exact .inr (.inl ⟨some f, fun _ => by rw [step_assign, hv]⟩)
  | seq c d => exact .inl ⟨⟨(c :: d :: rest) :: calls, w⟩, rfl, fun _ => step_seq⟩
  | ifThen b c =>
    rcases hb : b.eval w.store with f | (_ | _)
    · exact .inr (.inl ⟨some f, fun _ => by rw [step_ifThen, hb]⟩)
    · exact .inl ⟨⟨rest :: calls, w⟩, rfl, fun _ => by rw [step_ifThen, hb]⟩
    · exact .inl ⟨⟨(c :: rest) :: calls, w⟩, rfl, fun _ => by rw [step_ifThen, hb]⟩
  | ifElse b c d =>
    rcases hb : b.eval w.store with f | (_ | _)
    · exact .inr (.inl ⟨some f, fun _ => by rw [step_ifElse, hb]⟩)
    · exact .inl ⟨⟨(d :: rest) :: calls, w⟩, rfl, fun _ => by rw [step_ifElse, hb]⟩
    · exact .inl ⟨⟨(c :: rest) :: calls, w⟩, rfl, fun _ => by rw [step_ifElse, hb]⟩
  | loop b c =>
    rcases hb : b.eval w.store with f | (_ | _)
    · exact .inr (.inl ⟨some f, fun _ => by rw [step_loop, hb]⟩)
    · exact .inl ⟨⟨rest :: calls, w⟩, rfl, fun _ => by rw [step_loop, hb]⟩
    · exact .inl ⟨⟨[c] :: (.loop b c :: rest) :: calls, w⟩, rfl, fun _ => by rw [step_loop, hb]⟩
  | print e =>
    cases hv : e.eval w.store with
    | ok v =>
      refine .inr (.inr ⟨Number.render v, rest :: calls, by simp only [nextLine?, hv], ?_⟩)
      intro sink
      cases hp : sink w.printed (Number.render v) <;> simp only [step_print, hv, hp]
    | error f => exact .inr (.inl ⟨some f, fun _ => by rw [step_print, hv]⟩)

end Steps

section Limit

variable {T : Type} [Number T] {m next last : Machine T Lines} {n : Nat}

abbrev printedSize (m : Machine T Lines) : Nat := m.world.printed.size

/-- One step of both runs, as long as the limit is kept: the same one, or the unlimited run writes a
line for which the limited one has no room. -/
theorem step_limit (m : Machine T Lines) (hm : m.printedSize ≤ n) :
    (∃ next, m.step (Lines.sink none) = .ok next ∧ m.step (Lines.sink (some n)) = .ok next ∧
      next.printedSize ≤ n) ∨
    (∃ f, m.step (Lines.sink none) = .error ⟨f, m.world⟩ ∧
      m.step (Lines.sink (some n)) = .error ⟨f, m.world⟩) ∨
    ∃ line next, m.nextLine? = some line ∧ m.printedSize = n ∧
      m.step (Lines.sink none) = .ok next ∧ n < next.printedSize ∧
      m.step (Lines.sink (some n)) = .error ⟨some .output, m.world⟩ := by
  obtain ⟨next, hp, hs⟩ | ⟨f, hs⟩ | ⟨line, calls, hl, hs⟩ := m.step_cases
  · refine .inl ⟨next, hs _, hs _, ?_⟩
    rwa [printedSize, hp]
  · exact .inr (.inl ⟨f, hs _, hs _⟩)
  · have hpush : (m.world.printed.push line).size = m.printedSize + 1 := Array.size_push ..
    have hu : m.step (Lines.sink none) =
        .ok ⟨calls, m.world.store, m.world.printed.push line⟩ := by
      rw [hs]
      rfl
    by_cases hroom : m.printedSize < n
    · refine .inl ⟨_, hu, ?_, ?_⟩
      · simp [hs, Lines.sink, Lines.hasRoom, hroom]
      · exact Nat.le_trans (Nat.le_of_eq hpush) hroom
    · have hsize : m.printedSize = n := Nat.le_antisymm hm (Nat.not_lt.1 hroom)
      refine .inr (.inr ⟨line, _, hl, hsize, hu, ?_, ?_⟩)
      · rw [printedSize, hpush, hsize]
        exact Nat.lt_succ_self n
      · simp [hs, Lines.sink, Lines.hasRoom, hroom]

theorem prefix_printed_of_step (h : m.step (Lines.sink none) = .ok next) :
    m.world.printed.toList <+: next.world.printed.toList := by
  obtain ⟨last, hp, hs⟩ | ⟨f, hs⟩ | ⟨line, calls, -, hs⟩ := m.step_cases
  · cases h.symm.trans (hs _)
    exact hp ▸ List.prefix_rfl
  · cases h.symm.trans (hs _)
  · cases h.symm.trans (hs _)
    simp

theorem Reaches.prefix_printed (h : Reaches (Lines.sink none) m last) :
    m.world.printed.toList <+: last.world.printed.toList := by
  induction h with
  | refl => exact List.prefix_rfl
  | step hs _ ih => exact (prefix_printed_of_step hs).trans ih

theorem Reaches.printedSize_le (h : Reaches (Lines.sink none) m last) :
    m.printedSize ≤ last.printedSize := by
  simpa using h.prefix_printed.length_le

theorem Reaches.limit (h : Reaches (Lines.sink none) m last) (hl : last.printedSize ≤ n) :
    Reaches (Lines.sink (some n)) m last := by
  induction h with
  | refl => exact .refl
  | @step m next last hs rest ih =>
    have hnext := rest.printedSize_le
    have hm : m.printedSize ≤ n := Nat.le_trans (Reaches.step hs rest).printedSize_le hl
    obtain ⟨u, hu, hlimit, -⟩ | ⟨f, hu, -⟩ | ⟨line, u, -, -, hu, hsize, -⟩ := m.step_limit hm
    · cases hs.symm.trans hu
      exact .step hlimit (ih hl)
    · cases hs.symm.trans hu
    · cases hs.symm.trans hu
      omega

theorem Reaches.unlimited (h : Reaches (Lines.sink (some n)) m last) (hm : m.printedSize ≤ n) :
    Reaches (Lines.sink none) m last ∧ last.printedSize ≤ n := by
  induction h with
  | refl => exact ⟨.refl, hm⟩
  | @step m next last hs rest ih =>
    obtain ⟨u, hu, hlimit, hsize⟩ | ⟨f, -, hlimit⟩ | ⟨line, u, -, -, -, -, hlimit⟩ :=
      m.step_limit hm
    · cases hs.symm.trans hlimit
      obtain ⟨hr, hl⟩ := ih hsize
      exact ⟨.step hu hr, hl⟩
    · cases hs.symm.trans hlimit
    · cases hs.symm.trans hlimit

/-- A run that prints more than `n` lines comes to the state in which it writes the line behind the
first `n`. -/
theorem Reaches.exists_full (h : Reaches (Lines.sink none) m last) (hm : m.printedSize ≤ n)
    (hl : n < last.printedSize) :
    ∃ full line, Reaches (Lines.sink none) m full ∧ full.nextLine? = some line ∧
      full.printedSize = n ∧ full.world.printed.toList <+: last.world.printed.toList ∧
      full.step (Lines.sink (some n)) = .error ⟨some .output, full.world⟩ := by
  induction h with
  | refl => omega
  | @step m next last hs rest ih =>
    obtain ⟨u, hu, -, hsize⟩ | ⟨f, hu, -⟩ | ⟨line, u, hline, hfull, -, -, hlimit⟩ :=
      m.step_limit hm
    · cases hs.symm.trans hu
      obtain ⟨full, line, hr, hfull⟩ := ih hsize hl
      exact ⟨full, line, .step hs hr, hfull⟩
    · cases hs.symm.trans hu
    · exact ⟨m, line, .refl, hline, hfull, (Reaches.step hs rest).prefix_printed, hlimit⟩

/-- An output without a limit ends no run, so a run ends in a world that it has come to. -/
theorem world_of_step_error {o : Outcome T Lines} (h : m.step (Lines.sink none) = .error o) :
    m.world = o.world := by
  obtain ⟨u, hu, -⟩ | ⟨f, hu, -⟩ | ⟨line, u, -, -, hu, -⟩ :=
    m.step_limit (Nat.le_refl m.printedSize)
  · cases h.symm.trans hu
  · cases h.symm.trans hu
    rfl
  · cases h.symm.trans hu

theorem Visits.exists_reaches {w : World T Lines} (h : Visits (Lines.sink none) m w) :
    ∃ last, Reaches (Lines.sink none) m last ∧ last.world = w := by
  obtain h | ⟨f, h⟩ := h
  · exact h
  · obtain ⟨last, hr, hs⟩ := halts_iff_reaches.1 h
    exact ⟨last, hr, world_of_step_error hs⟩

theorem halts_limit {o : Outcome T Lines} (h : Halts (Lines.sink none) m o)
    (ho : o.world.printed.size ≤ n) : Halts (Lines.sink (some n)) m o := by
  obtain ⟨last, hr, hs⟩ := halts_iff_reaches.1 h
  rw [← world_of_step_error hs] at ho
  refine halts_iff_reaches.2 ⟨last, hr.limit ho, ?_⟩
  obtain ⟨u, hu, -⟩ | ⟨f, hu, hlimit⟩ | ⟨line, u, -, -, hu, -⟩ := last.step_limit ho
  · cases hs.symm.trans hu
  · cases hs.symm.trans hu
    exact hlimit
  · cases hs.symm.trans hu

theorem halts_full (h : Reaches (Lines.sink none) m last) (hm : m.printedSize ≤ n)
    (hl : n < last.printedSize) :
    ∃ full line, Reaches (Lines.sink none) m full ∧ full.nextLine? = some line ∧
      full.world.printed.toList = last.world.printed.toList.take n ∧
      Halts (Lines.sink (some n)) m ⟨some .output, full.world⟩ := by
  obtain ⟨full, line, hr, hline, hsize, hpre, hs⟩ := h.exists_full hm hl
  refine ⟨full, line, hr, hline, ?_, halts_iff_reaches.2 ⟨full, hr.limit (Nat.le_of_eq hsize), hs⟩⟩
  rw [← hsize]
  exact List.prefix_iff_eq_take.1 hpre

theorem halts_unlimited {o : Outcome T Lines} (h : Halts (Lines.sink (some n)) m o)
    (hm : m.printedSize ≤ n) :
    Halts (Lines.sink none) m o ∨
      ∃ last, Reaches (Lines.sink none) m last ∧ n < last.printedSize := by
  obtain ⟨last, hr, hs⟩ := halts_iff_reaches.1 h
  obtain ⟨hr, hl⟩ := hr.unlimited hm
  -- Both runs are in the state `last`; they go apart only if it writes the line that is too many.
  obtain ⟨u, -, hlimit, -⟩ | ⟨f, hu, hlimit⟩ | ⟨line, u, -, -, hu, hsize, -⟩ := last.step_limit hl
  · cases hs.symm.trans hlimit
  · cases hs.symm.trans hlimit
    exact .inl (halts_iff_reaches.2 ⟨last, hr, hu⟩)
  · exact .inr ⟨u, hr.trans (.step hu .refl), hsize⟩

theorem Reaches.halts_fault {e : Arith T} {rest : List (Command T)}
    {calls : List (List (Command T))} {w : World T Lines} {f : Fault}
    (h : Reaches (Lines.sink none) m ⟨(.print e :: rest) :: calls, w⟩)
    (hv : e.eval w.store = .error f) : Halts (Lines.sink none) m ⟨some f, w⟩ := by
  refine halts_iff_reaches.2 ⟨_, h, ?_⟩
  rw [step_print, hv]

end Limit

end Machine

open Machine

/-- A run into an output that takes `n` lines, beside the run into one that takes all. Up to `n`
lines they end alike. A run that prints more ends, with the fault of the output, where it is about
to write the line behind the first `n`. A run that prints no more and has no end has none with the
limit either. A fault of the printed expression comes before the one of the output. -/
theorem run_limit (T : Type) [Number T] (c : Command T) (s : Store T) (n : Nat) :
    (∀ steps o, c.run none steps s = some o → o.world.printed.size ≤ n →
      ∃ steps, c.run (some n) steps s = some o) ∧
    (∀ w, Visits (Lines.sink none) ⟨[[c]], .ofStore s⟩ w → n < w.printed.size →
      ∃ full line, Reaches (Lines.sink none) ⟨[[c]], .ofStore s⟩ full ∧
        full.nextLine? = some line ∧ full.world.printed.toList = w.printed.toList.take n ∧
        ∃ steps, c.run (some n) steps s = some ⟨some .output, full.world⟩) ∧
    ((∀ steps, c.run none steps s = none) →
      (∀ w, Visits (Lines.sink none) ⟨[[c]], .ofStore s⟩ w → w.printed.size ≤ n) →
      ∀ steps, c.run (some n) steps s = none) ∧
    ∀ e rest calls w f,
      Reaches (Lines.sink none) ⟨[[c]], .ofStore s⟩ ⟨(.print e :: rest) :: calls, w⟩ →
      w.printed.size = n → e.eval w.store = .error f →
      ∃ steps, c.run (some n) steps s = some ⟨some f, w⟩ := by
  have hstart : printedSize ⟨[[c]], .ofStore s⟩ ≤ n := Nat.zero_le n
  refine ⟨?_, ?_, ?_, ?_⟩
  · intro steps o h ho
    exact halts_limit ⟨steps, h⟩ ho
  · intro w hw hn
    obtain ⟨last, hr, rfl⟩ := hw.exists_reaches
    exact halts_full hr hstart hn
  · intro h hw
    apply run_eq_none_iff.2
    intro o ho
    obtain ho | ⟨last, hr, hl⟩ := halts_unlimited ho hstart
    · exact run_eq_none_iff.1 h o ho
    · exact absurd hl (Nat.not_lt.2 (hw last.world (.inl ⟨last, hr, rfl⟩)))
  · intro e rest calls w f hr hn hv
    exact halts_limit (hr.halts_fault hv) (Nat.le_of_eq hn)

/-- A program whose second line cannot be computed: it faults on the output if there is no room for
the first line, and on the division if there is room for one line only. -/
theorem run_limit_of_faulting_print :
    let c : Command Int64 := .seq (.print (.lit 1)) (.print (.binary .div (.lit 1) (.lit 0)))
    (∃ w : World Int64, w.printed.toList = [] ∧
      ∃ steps, c.run (some 0) steps .empty = some ⟨some .output, w⟩) ∧
    ∃ steps, c.run (some 1) steps .empty = some ⟨some .divisionByZero, .empty, #["1"]⟩ := by
  intro c
  have hend : Halts (Lines.sink none) ⟨[[c]], .ofStore .empty⟩
      ⟨some .divisionByZero, .empty, #["1"]⟩ := ⟨4, by cbv⟩
  obtain ⟨-, hfull, -, -⟩ := run_limit Int64 c .empty 0
  obtain ⟨full, line, -, -, hp, hrun⟩ := hfull _ (.inr ⟨_, hend⟩) (by decide)
  obtain ⟨-, -, -, hfault⟩ := run_limit Int64 c .empty 1
  have hreach : Reaches (Lines.sink none) ⟨[[c]], .ofStore .empty⟩
      ⟨[[.print (.binary .div (.lit 1) (.lit 0))]], .empty, #["1"]⟩ :=
    .step step_seq (.step (step_print.trans rfl) .refl)
  exact ⟨⟨full.world, hp, hrun⟩, hfault _ _ _ _ _ hreach rfl rfl⟩

end ImpLang
