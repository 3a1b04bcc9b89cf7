import ImpLang.Proofs.Command.BigStep

namespace ImpLang

variable {T W : Type}

/-- A command that has the property passes it on to its parts. -/
structure Command.Inherited (P : Command T → Prop) : Prop where
  seq {c d} (h : P (.seq c d)) : P c ∧ P d
  ifThen {b c} (h : P (.ifThen b c)) : P c
  ifElse {b c d} (h : P (.ifElse b c d)) : P c ∧ P d
  loop {b c} (h : P (.loop b c)) : P c

namespace Machine

def AllPending (P : Command T → Prop) (m : Machine T W) : Prop := ∀ call ∈ m.calls, ∀ c ∈ call, P c

variable {P : Command T → Prop} {c : Command T} {rest : List (Command T)}
  {calls : List (List (Command T))} {w : World T W}

theorem allPending_cons :
    AllPending P ⟨(c :: rest) :: calls, w⟩ ↔ P c ∧ AllPending P ⟨rest :: calls, w⟩ := by
  simp only [AllPending, List.forall_mem_cons, and_assoc]

theorem allPending_nil : AllPending P ⟨[] :: calls, w⟩ ↔ AllPending P ⟨calls, w⟩ := by
  simp [AllPending]

theorem allPending_singleton : AllPending P ⟨[[c]], w⟩ ↔ P c := by
  simp [AllPending]

theorem AllPending.world {u : World T W} (h : AllPending P ⟨calls, w⟩) : AllPending P ⟨calls, u⟩ :=
  h

variable [Number T] {sink : Sink W} {m next : Machine T W}

theorem step_allPending (hP : Command.Inherited P) (hm : m.AllPending P)
    (h : m.step sink = .ok next) : next.AllPending P := by
  obtain ⟨_ | ⟨_ | ⟨c, rest⟩, calls⟩, w⟩ := m
  · cases h
  · cases h
    exact allPending_nil.1 hm
  obtain ⟨hc, hrest⟩ := allPending_cons.1 hm
  cases c with
  | assign x e =>
    rw [step_assign] at h
    split at h <;> cases h
    exact hrest.world
  | seq c d =>
    cases h
    exact allPending_cons.2 ⟨(hP.seq hc).1, allPending_cons.2 ⟨(hP.seq hc).2, hrest⟩⟩
  | ifThen b c =>
    rw [step_ifThen] at h
    split at h <;> cases h
    · exact allPending_cons.2 ⟨hP.ifThen hc, hrest⟩
    · exact hrest
  | ifElse b c d =>
    rw [step_ifElse] at h
    split at h <;> cases h
    · exact allPending_cons.2 ⟨(hP.ifElse hc).1, hrest⟩
    · exact allPending_cons.2 ⟨(hP.ifElse hc).2, hrest⟩
  | loop b c =>
    rw [step_loop] at h
    split at h <;> cases h
    · exact allPending_cons.2 ⟨hP.loop hc, allPending_nil.2 hm⟩
    · exact hrest
  | print e =>
    rw [step_print] at h
    split at h
    · split at h <;> cases h
      exact hrest.world
    · cases h

end Machine

end ImpLang
