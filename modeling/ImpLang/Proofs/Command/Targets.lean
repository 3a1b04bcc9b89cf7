import Mathlib
import ImpLang.Proofs.Command.OutputLimit
import ImpLang.Proofs.Command.Pending
import ImpLang.Proofs.Store.Lookup

namespace ImpLang

variable {T W : Type}

namespace Command

def targets : Command T → List String
  | assign x _ => [x]
  | seq c d => c.targets ++ d.targets
  | ifThen _ c => c.targets
  | ifElse _ c d => c.targets ++ d.targets
  | loop _ c => c.targets
  | print _ => []

theorem inherited_targets (xs : List String) :
    Inherited fun c : Command T => c.targets ⊆ xs where
  seq h := List.append_subset.1 h
  ifThen h := h
  ifElse h := List.append_subset.1 h
  loop h := h

end Command

namespace Store

/-- The second store comes from the first one by assignments to some of the names. -/
inductive Assigned (xs : List String) : Store T → Store T → Prop where
  | refl {s} : Assigned xs s s
  | insert {s u x} (hx : x ∈ xs) (v : T) (rest : Assigned xs (s.insert x v) u) : Assigned xs s u

variable {xs : List String} {s u : Store T} {x : String}

theorem Assigned.get?_of_not_mem (h : Assigned xs s u) (hx : x ∉ xs) : u.get? x = s.get? x := by
  induction h with
  | refl => rfl
  | insert hy v _ ih => rw [ih, get?_insert, if_neg (ne_of_mem_of_not_mem hy hx).symm]

theorem Assigned.get?_ne_none (h : Assigned xs s u) (hx : s.get? x ≠ none) :
    u.get? x ≠ none := by
  induction h with
  | refl => exact hx
  | insert _ v _ ih =>
    apply ih
    rw [get?_insert]
    split
    · exact Option.some_ne_none v
    · exact hx

theorem Assigned.mem_of_get? (h : Assigned xs s u) (hs : s.get? x = none)
    (hu : u.get? x ≠ none) : x ∈ xs := by
  by_contra hx
  rw [h.get?_of_not_mem hx] at hu
  exact hu hs

end Store

open Store

variable [Number T] {sink : Sink W}

namespace Machine

variable {m next last : Machine T W} {o : Outcome T W} {xs : List String}

/-- The next command is an assignment of the value to the variable. -/
def Assigns (m : Machine T W) (x : String) (v : T) : Prop :=
  ∃ e rest calls, m.calls = (.assign x e :: rest) :: calls ∧ e.eval m.world.store = .ok v

theorem step_store (h : m.step sink = .ok next) :
    next.world.store = m.world.store ∨
      ∃ x v, m.Assigns x v ∧ next.world.store = m.world.store.insert x v := by
  obtain ⟨_ | ⟨_ | ⟨c, rest⟩, calls⟩, w⟩ := m
  · cases h
  · cases h
    exact .inl rfl
  cases c with
  | assign x e =>
    rw [step_assign] at h
    split at h <;> cases h
    exact .inr ⟨x, _, ⟨e, rest, calls, rfl, ‹_›⟩, rfl⟩
  | seq c d =>
    cases h
    exact .inl rfl
  | ifThen b c =>
    rw [step_ifThen] at h
    split at h <;> cases h <;> exact .inl rfl
  | ifElse b c d =>
    rw [step_ifElse] at h
    split at h <;> cases h <;> exact .inl rfl
  | loop b c =>
    rw [step_loop] at h
    split at h <;> cases h <;> exact .inl rfl
  | print e =>
    rw [step_print] at h
    split at h
    · split at h <;> cases h
      exact .inl rfl
    · cases h

theorem store_of_step_error (h : m.step sink = .error o) : o.world.store = m.world.store := by
  obtain ⟨next, -, hs⟩ | ⟨f, hs⟩ | ⟨line, calls, -, hs⟩ := m.step_cases
  · cases h.symm.trans (hs sink)
  · cases h.symm.trans (hs sink)
    rfl
  · rw [hs] at h
    split at h <;> cases h
    rfl

/-- Only an assignment changes the store, to one of the names that the waiting commands assign
to. -/
theorem step_assigns (hm : m.AllPending fun c => c.targets ⊆ xs) (h : m.step sink = .ok next) :
    next.world.store = m.world.store ∨
      ∃ x ∈ xs, ∃ v, m.Assigns x v ∧ next.world.store = m.world.store.insert x v := by
  obtain hstore | ⟨x, v, ⟨e, rest, calls, hcalls, hv⟩, hstore⟩ := step_store h
  · exact .inl hstore
  · have hx : Command.targets (.assign x e) ⊆ xs :=
      hm _ (by rw [hcalls]; exact List.mem_cons_self) _ List.mem_cons_self
    exact .inr ⟨x, hx List.mem_cons_self, v, ⟨e, rest, calls, hcalls, hv⟩, hstore⟩

theorem Reaches.allPending {P : Command T → Prop} (h : Reaches sink m last)
    (hP : Command.Inherited P) (hm : m.AllPending P) : last.AllPending P := by
  induction h with
  | refl => exact hm
  | step hs _ ih => exact ih (step_allPending hP hm hs)

theorem Reaches.assigned (h : Reaches sink m last)
    (hm : m.AllPending fun c => c.targets ⊆ xs) : Assigned xs m.world.store last.world.store := by
  induction h with
  | refl => exact .refl
  | @step m next last hs _ ih =>
    have hnext := ih (step_allPending (Command.inherited_targets xs) hm hs)
    obtain hstore | ⟨x, hx, v, -, hstore⟩ := step_assigns hm hs
    · rwa [hstore] at hnext
    · rw [hstore] at hnext
      exact .insert hx v hnext

theorem Halts.assigned (h : Halts sink m o) (hm : m.AllPending fun c => c.targets ⊆ xs) :
    Assigned xs m.world.store o.world.store := by
  obtain ⟨last, hr, hs⟩ := halts_iff_reaches.1 h
  rw [store_of_step_error hs]
  exact hr.assigned hm

end Machine

open Machine

variable {c : Command T} {w : World T W} {o : Outcome T W}

theorem Executes.mem_names (h : Executes sink c w o) {x : String}
    (hx : x ∈ o.world.store.names) : x ∈ w.store.names ∨ x ∈ c.targets := by
  have hassigned := (halts_singleton_iff.2 h).assigned (allPending_singleton.2 (List.Subset.refl _))
  rw [mem_names_iff] at hx ⊢
  by_cases hw : w.store.get? x = none
  · exact .inr (hassigned.mem_of_get? hw hx)
  · exact .inl hw

/-- However a run ends, a variable that the command does not assign to is bound as before, no
variable has become unbound, and those that have become bound are assigned to. On the way each step
leaves the store as it is, or it is an assignment of the command and binds the one variable that is
assigned to; so nothing is bound by being read. -/
theorem runIn_frame {steps : Nat} (h : c.runIn sink steps w = some o) :
    (∀ x ∉ c.targets, o.world.store.get? x = w.store.get? x) ∧
    (∀ x, w.store.get? x ≠ none → o.world.store.get? x ≠ none) ∧
    (∀ x, w.store.get? x = none → o.world.store.get? x ≠ none → x ∈ c.targets) ∧
    ∀ m, Reaches sink ⟨[[c]], w⟩ m →
      (∀ next, m.step sink = .ok next → next.world.store = m.world.store ∨
        ∃ x ∈ c.targets, ∃ v, m.Assigns x v ∧ next.world.store = m.world.store.insert x v) ∧
      ∀ o, m.step sink = .error o → o.world.store = m.world.store := by
  have hhalts : Halts sink ⟨[[c]], w⟩ o := ⟨steps, h⟩
  have hstart : AllPending (fun d => d.targets ⊆ c.targets) (⟨[[c]], w⟩ : Machine T W) :=
    allPending_singleton.2 (List.Subset.refl _)
  have hassigned := hhalts.assigned hstart
  refine ⟨fun x hx => hassigned.get?_of_not_mem hx, fun x hx => hassigned.get?_ne_none hx,
    fun x hs ho => hassigned.mem_of_get? hs ho, fun m hm => ⟨?_, ?_⟩⟩
  · have hpending := hm.allPending (Command.inherited_targets c.targets) hstart
    exact fun next hs => step_assigns hpending hs
  · exact fun o hs => store_of_step_error hs

/-- The second round of a loop divides by zero: what is read there, `b` and `n`, stays unbound or as
it was. -/
theorem runIn_frame_of_faulting_loop :
    let c : Command Int64 := .loop (.compare .lt (.var "a") (.lit 3))
      (.seq (.assign "a" (.binary .add (.var "a") (.lit 1)))
        (.seq (.print (.binary .div (.var "n") (.binary .sub (.lit 2) (.var "a"))))
          (.assign "k" (.var "b"))))
    let s : Store Int64 := .ofList [("n", 10), ("k", 7)]
    let o : Outcome Int64 :=
      ⟨some .divisionByZero, .ofList [("a", 2), ("k", 0), ("n", 10)], #["10"]⟩
    c.runIn (Lines.sink none) 20 ⟨s, #[]⟩ = some o ∧
      (∀ x ∉ ["a", "k"], o.world.store.get? x = s.get? x) ∧
      (∀ x, s.get? x ≠ none → o.world.store.get? x ≠ none) ∧
      s.get? "a" = none ∧ o.world.store.get? "a" = some 2 ∧ "a" ∈ c.targets := by
  intro c s o
  have h : c.runIn (Lines.sink none) 20 ⟨s, #[]⟩ = some o := by cbv
  obtain ⟨hframe, hbound, hnew, -⟩ := runIn_frame h
  exact ⟨h, hframe, hbound, rfl, rfl, hnew "a" rfl (by decide)⟩

end ImpLang
