import ImpLang.Proofs.Parser.Session

namespace ImpLang

/-- A match that starts at `pos` may end at `stop`. -/
def InBounds (ts : Array Token) (pos stop : Nat) : Prop :=
  pos ≤ stop ∧ (stop = pos ∨ stop ≤ ts.size)

def Call.InBounds (ts : Array Token) (c : Call) : Prop :=
  ∀ stop, c.stop = some stop → ImpLang.InBounds ts c.start stop

/-- The reply, if it is a match, and all calls end in bounds. -/
def Within (ts : Array Token) (pos : Nat) {α : Type} (calls : List Call) (r : Reply α) : Prop :=
  (∀ stop v, r = some (stop, v) → InBounds ts pos stop) ∧ ∀ c ∈ calls, c.InBounds ts

def Trace.Records {α : Type u} (P : Call → Prop) (x : Trace α) : Prop :=
  ∀ calls a, x = some (calls, a) → ∀ c ∈ calls, P c

namespace Trace.Records

variable {α β : Type u} {P : Call → Prop} {x : Trace α} {f : α → Trace β}

theorem pure (a : α) : Records P (Pure.pure a : Trace α) := by
  intro calls b h
  cases h
  exact fun c hc => absurd hc List.not_mem_nil

theorem diverge : Records P (Trace.diverge : Trace α) := by
  intro calls a h
  cases h

theorem bind (hx : Records P x) (hf : ∀ a, Records P (f a)) : Records P (x >>= f) := by
  intro calls b h c hc
  obtain ⟨before, a, after, ha, hb, rfl⟩ := Trace.bind_eq_some_iff.1 h
  obtain hc | hc := List.mem_append.1 hc
  · exact hx before a ha c hc
  · exact hf a after b hb c hc

end Trace.Records

namespace Parser

variable {ι : Type} {τ : ι → Type} {α : Type} {rules : Rules τ} {used : ι → Prop}
  {ts : Array Token} {depth pos : Nat} {P : Call → Prop}

theorem repeatFrom_records {f : Nat → Trace (Reply α)} (hf : ∀ pos, (f pos).Records P)
    (n pos : Nat) : (repeatFrom f n pos).Records P := by
  induction n generalizing pos with
  | zero => exact .diverge
  | succ n ih =>
    refine (hf pos).bind fun r => ?_
    obtain _ | ⟨next, a⟩ := r
    · exact .pure _
    · exact (ih next).bind fun _ => .pure _

theorem sepFrom_records {f : Nat → Trace (Reply α)} {g : Nat → Trace (Reply (α → α → α))}
    (hf : ∀ pos, (f pos).Records P) (hg : ∀ pos, (g pos).Records P) (n pos : Nat) (left : α) :
    (sepFrom f g n pos left).Records P := by
  induction n generalizing pos left with
  | zero => exact .diverge
  | succ n ih =>
    refine (hg pos).bind fun r => ?_
    obtain _ | ⟨after, join⟩ := r
    · exact .pure _
    · refine (hf after).bind fun r => ?_
      obtain _ | ⟨next, right⟩ := r
      · exact .pure _
      · exact ih next _

theorem run_records (p : Parser τ α) (depth pos : Nat) :
    (run rules ts depth p pos).Records (Call.InBounds ts) := by
  induction depth using Nat.strongRecOn generalizing α pos with
  | ind depth enter =>
    induction p generalizing pos with
    | token | tagged => exact .pure _
    | seq p q ihp ihq =>
      refine (ihp pos).bind fun r => ?_
      obtain _ | ⟨next, a⟩ := r
      · exact .pure _
      · exact (ihq next).bind fun _ => .pure _
    | alt p q ihp ihq =>
      refine (ihp pos).bind fun r => ?_
      obtain _ | found := r
      · exact ihq pos
      · exact .pure _
    | opt p ih =>
      refine (ih pos).bind fun r => ?_
      obtain _ | found := r
      · exact .pure _
      · exact .pure _
    | many p ih => exact (repeatFrom_records ih _ pos).bind fun _ => .pure _
    | map f p ih | filterMap f p ih | whole p ih => exact (ih pos).bind fun _ => .pure _
    | sepBy p s ihp ihs =>
      refine (ihp pos).bind fun r => ?_
      obtain _ | ⟨next, a⟩ := r
      · exact .pure _
      · exact (sepFrom_records ihp ihs _ next a).bind fun _ => .pure _
    | probe name p ih =>
      intro calls r h c hc
      obtain ⟨before, r', after, hr, hend, rfl⟩ := Trace.bind_eq_some_iff.1 h
      cases hend
      obtain hc | hc := List.mem_append.1 hc
      · exact ih pos before _ hr c hc
      · -- The call of the probe itself.
        obtain rfl := List.mem_singleton.1 hc
        intro stop hstop
        obtain ⟨⟨stop, v⟩, rfl, rfl⟩ := Option.map_eq_some_iff.1 hstop
        exact (replies_of_run hr).stop_bounds
    | delay p =>
      match depth with
      | 0 => exact .diverge
      | depth + 1 => exact enter depth (Nat.lt_succ_self depth) p pos
    | rule i =>
      match depth with
      | 0 => exact .diverge
      | depth + 1 => exact enter depth (Nat.lt_succ_self depth) (rules i) pos

theorem within_of_run {p : Parser τ α} {calls : List Call} {r : Reply α}
    (h : run rules ts depth p pos = some (calls, r)) : Within ts pos calls r := by
  refine ⟨?_, run_records p depth pos calls r h⟩
  rintro stop v rfl
  exact (replies_of_run h).stop_bounds

/-- A run of the parser ends, and where it matches it ends in bounds, like every call on the way. -/
structure StaysInBounds (rules : Rules τ) (ts : Array Token) (p : Parser τ α) (pos : Nat) :
    Prop where
  ends : ∃ enough calls r, ∀ depth, enough ≤ depth → run rules ts depth p pos = some (calls, r)
  within : ∀ depth calls r, run rules ts depth p pos = some (calls, r) → Within ts pos calls r
  answers : ∀ starts, ∃ enough answers, ∀ depth, enough ≤ depth →
    session (Built.answer rules ts depth p) .nothing (starts ++ [pos]) = some answers ∧
      List.Forall₂ (fun start a => Within ts start a.calls a.reply) (starts ++ [pos]) answers

/-- The parsers whose runs end stay in bounds, from every position. -/
theorem WellFormed.staysInBounds {p : Parser τ α} (hp : WellFormed rules used p) (ts : Array Token)
    (pos : Nat) : StaysInBounds rules ts p pos where
  ends := by
    obtain ⟨enough, ⟨calls, r⟩, h⟩ := hp.settles ts pos
    exact ⟨enough, calls, r, h⟩
  within depth calls r h := within_of_run h
  answers starts := by
    obtain ⟨enough, hruns⟩ := Cells.exists_enough hp ts (starts ++ [pos])
    obtain ⟨answers, hsession, h⟩ := Cells.exists_answers (Cells.valid_fresh p) hruns
    refine ⟨enough, answers.map fun a => ⟨a.reply, a.calls, a.built.length⟩, ?_⟩
    refine fun depth hd => ⟨?_, ?_⟩
    · exact Cells.session_recorded (Cells.mirrors_fresh p) (hsession depth hd)
    · rw [List.forall₂_map_right_iff]
      exact h.runs.imp fun start a hrun => within_of_run hrun

/-- Behind the tokens, with a parser that matches nothing there. -/
theorem staysInBounds_behind_tokens :
    let rules := Cells.nested (.token ")" .reserved)
    let ts := #[.reserved "(", .id "x", .reserved ")"]
    let p := Parser.many (.probe "name" (.rule ()))
    WellFormed rules (fun _ => True) p ∧ StaysInBounds rules ts p 5 ∧
      run rules ts 1 p 5 = some ([⟨"name", 5, none⟩], some (5, [])) := by
  intro rules ts p
  have hr : Headway (fun _ => true) rules := ⟨fun _ _ => rfl, fun _ => rfl⟩
  have hbody := wellFormed_of_guarded hr (hr.guarded ())
  have hg : guarded (fun _ => true) true p = true := rfl
  have hp : WellFormed rules (fun _ => True) p :=
    ⟨progressive_of_guarded hr hg, hbody.bodies, hbody.acc⟩
  exact ⟨hp, hp.staysInBounds ts 5, rfl⟩

end Parser

end ImpLang
