import ImpLang.Proofs.Command.BigStep

namespace ImpLang

namespace Command

variable {T : Type}

/-- The statements of a list, from the first to the last, however they are grouped. -/
def statements : Command T → List (Command T)
  | seq c d => c.statements ++ d.statements
  | assign x e => [assign x e]
  | ifThen b c => [ifThen b c]
  | ifElse b c d => [ifElse b c d]
  | loop b c => [loop b c]
  | print e => [print e]

/-- A list that goes on with the statements of another one. -/
def append (c d : Command T) : Command T := d.statements.foldl seq c

theorem append_seq (c d e : Command T) : c.append (seq d e) = (c.append d).append e := by
  simp [append, statements]

theorem statements_append (c d : Command T) :
    (c.append d).statements = c.statements ++ d.statements := by
  induction d generalizing c with
  | seq d e ihd ihe => rw [append_seq, ihe, ihd, statements, List.append_assoc]
  | _ => rfl

/-- The command whose lists of statements, the inner ones too, all go on to the left. -/
def regroup : Command T → Command T
  | seq c d => c.regroup.append d.regroup
  | assign x e => assign x e
  | ifThen b c => ifThen b c.regroup
  | ifElse b c d => ifElse b c.regroup d.regroup
  | loop b c => loop b c.regroup
  | print e => print e

theorem statements_regroup (c : Command T) : c.regroup.statements = c.statements.map regroup := by
  induction c with
  | seq c d ihc ihd => rw [regroup, statements_append, ihc, ihd, statements, List.map_append]
  | _ => rfl

theorem exists_regroup_eq_foldl (c : Command T) :
    ∃ s l, c.statements = s :: l ∧ c.regroup = (l.map regroup).foldl seq s.regroup := by
  induction c with
  | seq c d ihc _ =>
    obtain ⟨s, l, hstatements, hregroup⟩ := ihc
    refine ⟨s, l ++ d.statements, by rw [statements, hstatements, List.cons_append], ?_⟩
    rw [regroup, append, statements_regroup, hregroup, List.map_append, List.foldl_append]
  | _ => exact ⟨_, [], rfl, rfl⟩

theorem regroup_eq_of_statements {c d : Command T}
    (h : c.statements.map regroup = d.statements.map regroup) : c.regroup = d.regroup := by
  obtain ⟨s, l, hc, hcr⟩ := exists_regroup_eq_foldl c
  obtain ⟨t, m, hd, hdr⟩ := exists_regroup_eq_foldl d
  rw [hc, hd, List.map_cons, List.map_cons] at h
  obtain ⟨hst, hlm⟩ := List.cons.inj h
  rw [hcr, hdr, hst, hlm]

end Command

variable {T W : Type} [Number T] {sink : Sink W} {c d e : Command T} {w : World T W}
  {o : Outcome T W}

/-- Two commands have the same outcomes from every world. -/
def Command.Equivalent (sink : Sink W) (c d : Command T) : Prop :=
  ∀ w o, Executes sink c w o ↔ Executes sink d w o

theorem executes_seq_iff : Executes sink (.seq c d) w o ↔
    (∃ u, Executes sink c w ⟨none, u⟩ ∧ Executes sink d u o) ∨
      ∃ f u, Executes sink c w ⟨some f, u⟩ ∧ o = ⟨some f, u⟩ := by
  constructor
  · intro h
    cases h with
    | seq hc hd => exact .inl ⟨_, hc, hd⟩
    | seq_fault hc => exact .inr ⟨_, _, hc, rfl⟩
  · rintro (⟨u, hc, hd⟩ | ⟨f, u, hc, rfl⟩)
    · exact .seq hc hd
    · exact .seq_fault hc

theorem seq_assoc (c d e : Command T) :
    Command.Equivalent sink (.seq (.seq c d) e) (.seq c (.seq d e)) := by
  intro w o
  constructor
  · intro h
    obtain ⟨u, hcd, he⟩ | ⟨f, u, hcd, rfl⟩ := executes_seq_iff.1 h
    · obtain ⟨v, hc, hd⟩ | ⟨f, v, -, hf⟩ := executes_seq_iff.1 hcd
      · exact .seq hc (.seq hd he)
      · cases hf
    · obtain ⟨v, hc, hd⟩ | ⟨g, v, hc, hg⟩ := executes_seq_iff.1 hcd
      · exact .seq hc (.seq_fault hd)
      · cases hg
        exact .seq_fault hc
  · intro h
    obtain ⟨u, hc, hde⟩ | ⟨f, u, hc, rfl⟩ := executes_seq_iff.1 h
    · obtain ⟨v, hd, he⟩ | ⟨f, v, hd, rfl⟩ := executes_seq_iff.1 hde
      · exact .seq (.seq hc hd) he
      · exact .seq_fault (.seq hc hd)
    · exact .seq_fault (.seq_fault hc)

theorem seq_congr_left {c' : Command T} (h : Command.Equivalent sink c c') (d : Command T) :
    Command.Equivalent sink (.seq c d) (.seq c' d) := by
  intro w o
  simp only [executes_seq_iff, h w]

theorem append_equivalent (c d : Command T) :
    Command.Equivalent sink (c.append d) (.seq c d) := by
  induction d generalizing c with
  | seq d e ihd ihe =>
    -- The statements of `d` come behind `c` first, so both hypotheses are used with another list.
    intro w o
    rw [Command.append_seq, ihe _ w o, seq_congr_left (ihd c) e w o]
    exact seq_assoc c d e w o
  | _ => exact fun _ _ => Iff.rfl

end ImpLang
