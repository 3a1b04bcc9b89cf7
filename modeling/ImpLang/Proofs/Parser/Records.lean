import ImpLang.Parser.Built
import ImpLang.Proofs.Parser.Cells

namespace ImpLang

structure Recorded {σ : Type 1} {σ' ρ : Type} (S : σ → σ' → Prop) (v : Visit σ ρ)
    (w : Progress σ' ρ) : Prop where
  value : v.value = w.value
  state : S v.cells w.record
  count : v.built.length = w.count

namespace Cells

variable {ι : Type} {τ : ι → Type} {α β : Type}

/-- The record says of each cell whether it is filled, and a filled cell holds what it was asked to
build. -/
def Mirrors (rules : Rules τ) : {α : Type} → {p : Parser τ α} → Cells p → Built → Prop
  | _, _, token _ _, _ => True
  | _, _, tagged _, _ => True
  | _, _, seq c d, b => c.Mirrors rules b.first ∧ d.Mirrors rules b.second
  | _, _, alt c d, b => c.Mirrors rules b.first ∧ d.Mirrors rules b.second
  | _, _, opt c, b => c.Mirrors rules b
  | _, _, many c, b => c.Mirrors rules b
  | _, _, map c, b => c.Mirrors rules b
  | _, _, filterMap c, b => c.Mirrors rules b
  | _, _, sepBy c d, b => c.Mirrors rules b.first ∧ d.Mirrors rules b.second
  | _, _, whole c, b => c.Mirrors rules b
  | _, _, probe c, b => c.Mirrors rules b
  | _, _, waiting, b => b.isReady = false
  | _, .delay p, ready held c, b => held = p ∧ b.isReady = true ∧ c.Mirrors rules b.inside
  | _, _, unread, b => b.isReady = false
  | _, .rule i, read held c, b => held = rules i ∧ b.isReady = true ∧ c.Mirrors rules b.inside

variable {rules : Rules τ} {ts : Array Token} {depth pos : Nat}

theorem mirrors_fresh (p : Parser τ α) : (fresh p).Mirrors rules .nothing := by
  induction p with
  | token | tagged => trivial
  | delay | rule => rfl
  | seq p q ihp ihq | alt p q ihp ihq | sepBy p q ihp ihq => exact ⟨ihp, ihq⟩
  | opt p ih | many p ih | map f p ih | filterMap f p ih | whole p ih | probe name p ih => exact ih

theorem inside_of_not_ready {b : Built} (h : b.isReady = false) : b.inside = .nothing := by
  cases b with
  | ready => cases h
  | nothing | both => rfl

theorem length_filling {b : Built} (h : b.isReady = false) (k : List Place) :
    ([] :: k.map (.inside :: ·)).length = b.missing + k.length := by
  rw [List.length_cons, List.length_map, Built.missing, h]
  exact Nat.add_comm ..

theorem length_again {b : Built} (h : b.isReady = true) (k : List Place) :
    (k.map (Turn.inside :: ·)).length = b.missing + k.length := by
  rw [List.length_map, Built.missing, h]
  exact (Nat.zero_add _).symm

theorem repeatFrom_recorded {p : Parser τ α}
    {f : Cells p → Nat → Trace (Visit (Cells p) (Reply α))}
    {g : Built → Nat → Trace (Progress Built (Reply α))}
    (h : ∀ {c b} pos, c.Mirrors rules b → (f c pos).Refines (Recorded (Mirrors rules)) (g b pos))
    {c : Cells p} {b : Built} (hcb : c.Mirrors rules b) (n pos : Nat) :
    (repeatFrom f n c pos).Refines (Recorded (Mirrors rules)) (Built.repeatFrom g n b pos) := by
  induction n generalizing c b pos with
  | zero => exact .diverge _
  | succ n ih =>
    refine (h pos hcb).bind ?_
    rintro ⟨r, c, k⟩ ⟨-, b, -⟩ ⟨rfl, hcb, rfl⟩
    match r with
    | none => exact .pure ⟨rfl, hcb, rfl⟩
    | some (next, a) =>
      refine (ih hcb next).bind ?_
      rintro ⟨found, c, l⟩ ⟨-, b, -⟩ ⟨rfl, hcb, rfl⟩
      exact .pure ⟨rfl, hcb, List.length_append⟩

theorem sepFrom_recorded {p : Parser τ α} {s : Parser τ (α → α → α)}
    {f : Cells p → Nat → Trace (Visit (Cells p) (Reply α))}
    {f' : Cells s → Nat → Trace (Visit (Cells s) (Reply (α → α → α)))}
    {g : Built → Nat → Trace (Progress Built (Reply α))}
    {g' : Built → Nat → Trace (Progress Built (Reply (α → α → α)))}
    (hf : ∀ {c b} pos, c.Mirrors rules b → (f c pos).Refines (Recorded (Mirrors rules)) (g b pos))
    (hf' : ∀ {d b} pos, d.Mirrors rules b →
      (f' d pos).Refines (Recorded (Mirrors rules)) (g' b pos))
    {C : Cells (.sepBy p s)} {b : Built × Built} (hCb : C.Mirrors rules (.both b.1 b.2))
    (n pos : Nat) (left : α) :
    (sepFrom f f' n C pos left).Refines (Recorded fun C b => C.Mirrors rules (.both b.1 b.2))
      (Built.sepFrom g g' n b pos left) := by
  induction n generalizing C b pos left with
  | zero => exact .diverge _
  | succ n ih =>
    obtain ⟨c, d, rfl⟩ := C.parts
    obtain ⟨b, b'⟩ := b
    refine (hf' pos hCb.2).bind ?_
    rintro ⟨r, d, k⟩ ⟨-, b', -⟩ ⟨rfl, hd, rfl⟩
    match r with
    | none => exact .pure ⟨rfl, ⟨hCb.1, hd⟩, List.length_map _⟩
    | some (after, join) =>
      refine (hf after hCb.1).bind ?_
      rintro ⟨r, c, l⟩ ⟨-, b, -⟩ ⟨rfl, hc, rfl⟩
      match r with
      | none => exact .pure ⟨rfl, ⟨hc, hd⟩, by simp⟩
      | some (next, right) =>
        refine (ih (C := sepBy c d) (b := (b, b')) ⟨hc, hd⟩ next (join left right)).bind ?_
        rintro ⟨found, C, m⟩ ⟨-, bb, -⟩ ⟨rfl, hC, rfl⟩
        exact .pure ⟨rfl, hC, by simp [Nat.add_assoc]⟩

/-- A run of built parsers is recorded by the one that only keeps which cells are filled. -/
theorem recorded {p : Parser τ α} {c : Cells p} {b : Built} (hcb : c.Mirrors rules b)
    (ts : Array Token) (depth pos : Nat) :
    (run rules ts depth c pos).Refines (Recorded (Mirrors rules))
      (Built.run rules ts depth p b pos) := by
  induction depth using Nat.strongRecOn generalizing α p c b pos with
  | ind depth enter =>
    induction p generalizing b pos with
    | token | tagged =>
      obtain rfl := c.parts
      exact .pure ⟨rfl, trivial, rfl⟩
    | seq p q ihp ihq =>
      obtain ⟨c, d, rfl⟩ := c.parts
      refine (ihp hcb.1 pos).bind ?_
      rintro ⟨r, c, k⟩ ⟨-, b', -⟩ ⟨rfl, hc, rfl⟩
      match r with
      | none => exact .pure ⟨rfl, ⟨hc, hcb.2⟩, List.length_map _⟩
      | some (next, a) =>
        refine (ihq hcb.2 next).bind ?_
        rintro ⟨r, d, l⟩ ⟨-, b'', -⟩ ⟨rfl, hd, rfl⟩
        exact .pure ⟨rfl, ⟨hc, hd⟩, by simp⟩
    | alt p q ihp ihq =>
      obtain ⟨c, d, rfl⟩ := c.parts
      refine (ihp hcb.1 pos).bind ?_
      rintro ⟨r, c, k⟩ ⟨-, b', -⟩ ⟨rfl, hc, rfl⟩
      match r with
      | none =>
        refine (ihq hcb.2 pos).bind ?_
        rintro ⟨r, d, l⟩ ⟨-, b'', -⟩ ⟨rfl, hd, rfl⟩
        exact .pure ⟨rfl, ⟨hc, hd⟩, by simp⟩
      | some found => exact .pure ⟨rfl, ⟨hc, hcb.2⟩, List.length_map _⟩
    | opt p ih =>
      obtain ⟨c, rfl⟩ := c.parts
      refine (ih hcb pos).bind ?_
      rintro ⟨r, c, k⟩ ⟨-, b', -⟩ ⟨rfl, hc, rfl⟩
      match r with
      | none => exact .pure ⟨rfl, hc, rfl⟩
      | some found => exact .pure ⟨rfl, hc, rfl⟩
    | many p ih =>
      obtain ⟨c, rfl⟩ := c.parts
      refine (repeatFrom_recorded (fun pos h => ih h pos) hcb _ pos).bind ?_
      rintro ⟨found, c, k⟩ ⟨-, b', -⟩ ⟨rfl, hc, rfl⟩
      exact .pure ⟨rfl, hc, rfl⟩
    | map f p ih | filterMap f p ih | whole p ih =>
      obtain ⟨c, rfl⟩ := c.parts
      refine (ih hcb pos).bind ?_
      rintro ⟨r, c, k⟩ ⟨-, b', -⟩ ⟨rfl, hc, rfl⟩
      exact .pure ⟨rfl, hc, rfl⟩
    | sepBy p s ihp ihs =>
      obtain ⟨c, d, rfl⟩ := c.parts
      refine (ihp hcb.1 pos).bind ?_
      rintro ⟨r, c, k⟩ ⟨-, b', -⟩ ⟨rfl, hc, rfl⟩
      match r with
      | none => exact .pure ⟨rfl, ⟨hc, hcb.2⟩, List.length_map _⟩
      | some (next, a) =>
        refine (sepFrom_recorded (fun pos h => ihp h pos) (fun pos h => ihs h pos)
          (C := sepBy c d) (b := (b', b.second)) ⟨hc, hcb.2⟩ _ next a).bind ?_
        rintro ⟨found, C, l⟩ ⟨-, bb, -⟩ ⟨rfl, hC, rfl⟩
        exact .pure ⟨rfl, hC, by simp⟩
    | probe name p ih =>
      obtain ⟨c, rfl⟩ := c.parts
      refine (ih hcb pos).bind ?_
      rintro ⟨r, c, k⟩ ⟨-, b', -⟩ ⟨rfl, hc, rfl⟩
      intro calls v h
      cases h
      exact ⟨_, rfl, rfl, hc, rfl⟩
    | delay p ih =>
      match depth with
      | 0 => obtain rfl | ⟨held, c, rfl⟩ := c.parts <;> exact .diverge _
      | depth + 1 =>
        obtain rfl | ⟨held, c, rfl⟩ := c.parts
        · have hfresh : (fresh p).Mirrors rules b.inside := by
            rw [inside_of_not_ready hcb]
            exact mirrors_fresh _
          refine (enter depth (Nat.lt_succ_self depth) hfresh pos).bind ?_
          rintro ⟨r, c, k⟩ ⟨-, b', -⟩ ⟨rfl, hc, rfl⟩
          exact .pure ⟨rfl, ⟨rfl, rfl, hc⟩, length_filling hcb k⟩
        · obtain ⟨rfl, hready, hc⟩ := hcb
          refine (enter depth (Nat.lt_succ_self depth) hc pos).bind ?_
          rintro ⟨r, c, k⟩ ⟨-, b', -⟩ ⟨rfl, hc, rfl⟩
          exact .pure ⟨rfl, ⟨rfl, rfl, hc⟩, length_again hready k⟩
    | rule i =>
      match depth with
      | 0 => obtain rfl | ⟨held, c, rfl⟩ := c.parts <;> exact .diverge _
      | depth + 1 =>
        obtain rfl | ⟨held, c, rfl⟩ := c.parts
        · have hfresh : (fresh (rules i)).Mirrors rules b.inside := by
            rw [inside_of_not_ready hcb]
            exact mirrors_fresh _
          refine (enter depth (Nat.lt_succ_self depth) hfresh pos).bind ?_
          rintro ⟨r, c, k⟩ ⟨-, b', -⟩ ⟨rfl, hc, rfl⟩
          exact .pure ⟨rfl, ⟨rfl, rfl, hc⟩, length_filling hcb k⟩
        · obtain ⟨rfl, hready, hc⟩ := hcb
          refine (enter depth (Nat.lt_succ_self depth) hc pos).bind ?_
          rintro ⟨r, c, k⟩ ⟨-, b', -⟩ ⟨rfl, hc, rfl⟩
          exact .pure ⟨rfl, ⟨rfl, rfl, hc⟩, length_again hready k⟩

end Cells

end ImpLang
