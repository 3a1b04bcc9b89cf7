import Mathlib.Data.Set.Basic
import Mathlib.Data.List.Nodup
import Mathlib.Tactic.Tauto
import ImpLang.Proofs.Parser.Replies

namespace ImpLang

/-- A step from a built parser into one of its parts. -/
inductive Turn where
  | first
  | second
  | inside
deriving DecidableEq, Repr

/-- The way from a built parser to one of its cells. -/
abbrev Place : Type := List Turn

/-- A built parser: its own parts as they are written, and cells for the delayed ones and the rules.
A cell holds any parser of the right type, again with its cells. -/
inductive Cells {ι : Type} {τ : ι → Type} : {α : Type} → Parser τ α → Type 1 where
  | token (text : String) (tag : Tag) : Cells (.token text tag)
  | tagged (tag : Tag) : Cells (.tagged tag)
  | seq {α β : Type} {p : Parser τ α} {q : Parser τ β} (first : Cells p) (second : Cells q) :
    Cells (.seq p q)
  | alt {α : Type} {p q : Parser τ α} (first : Cells p) (second : Cells q) : Cells (.alt p q)
  | opt {α : Type} {p : Parser τ α} (inner : Cells p) : Cells (.opt p)
  | many {α : Type} {p : Parser τ α} (inner : Cells p) : Cells (.many p)
  | map {α β : Type} {f : α → β} {p : Parser τ α} (inner : Cells p) : Cells (.map f p)
  | filterMap {α β : Type} {f : α → Option β} {p : Parser τ α} (inner : Cells p) :
    Cells (.filterMap f p)
  | sepBy {α : Type} {p : Parser τ α} {s : Parser τ (α → α → α)} (first : Cells p)
    (second : Cells s) : Cells (.sepBy p s)
  | whole {α : Type} {p : Parser τ α} (inner : Cells p) : Cells (.whole p)
  | probe {α : Type} {name : String} {p : Parser τ α} (inner : Cells p) : Cells (.probe name p)
  | waiting {α : Type} {p : Parser τ α} : Cells (.delay p)
  | ready {α : Type} {p : Parser τ α} (held : Parser τ α) (inner : Cells held) : Cells (.delay p)
  | unread {i : ι} : Cells (.rule i)
  | read {i : ι} (held : Parser τ (τ i)) (inner : Cells held) : Cells (.rule i)

/-- What a call of a built parser gives: a value, the cells after it, and the places of the cells
that were filled, in their order. -/
structure Visit (σ : Type 1) (ρ : Type) : Type 1 where
  value : ρ
  cells : σ
  built : List Place

namespace Cells

variable {ι : Type} {τ : ι → Type} {α β : Type}

/-- A parser that has just been built: all its cells are empty. -/
def fresh : {α : Type} → (p : Parser τ α) → Cells p
  | _, .token text tag => token text tag
  | _, .tagged tag => tagged tag
  | _, .seq p q => seq (fresh p) (fresh q)
  | _, .alt p q => alt (fresh p) (fresh q)
  | _, .opt p => opt (fresh p)
  | _, .many p => many (fresh p)
  | _, .map _ p => map (fresh p)
  | _, .filterMap _ p => filterMap (fresh p)
  | _, .sepBy p s => sepBy (fresh p) (fresh s)
  | _, .whole p => whole (fresh p)
  | _, .probe _ p => probe (fresh p)
  | _, .delay _ => waiting
  | _, .rule _ => unread

def repeatFrom {p : Parser τ α} (inner : Cells p → Nat → Trace (Visit (Cells p) (Reply α))) :
    (budget : Nat) → Cells p → Nat → Trace (Visit (Cells p) (Nat × List α))
  | 0, _, _ => .diverge
  | budget + 1, c, pos => do
    let ⟨reply, c, k⟩ ← inner c pos
    match reply with
    | none => return ⟨(pos, []), c, k⟩
    | some (next, a) =>
      let ⟨(stop, as), c, l⟩ ← repeatFrom inner budget c next
      return ⟨(stop, a :: as), c, k ++ l⟩

def sepFrom {p : Parser τ α} {s : Parser τ (α → α → α)}
    (element : Cells p → Nat → Trace (Visit (Cells p) (Reply α)))
    (separator : Cells s → Nat → Trace (Visit (Cells s) (Reply (α → α → α)))) :
    (budget : Nat) → Cells (.sepBy p s) → Nat → α →
      Trace (Visit (Cells (.sepBy p s)) (Nat × α))
  | 0, _, _, _ => .diverge
  | budget + 1, sepBy c d, pos, left => do
    let ⟨reply, d, k⟩ ← separator d pos
    match reply with
    | none => return ⟨(pos, left), sepBy c d, k.map (.second :: ·)⟩
    | some (after, join) =>
      let ⟨reply, c, l⟩ ← element c after
      match reply with
      | none => return ⟨(pos, left), sepBy c d, k.map (.second :: ·) ++ l.map (.first :: ·)⟩
      | some (next, right) =>
        let ⟨found, cd, m⟩ ← sepFrom element separator budget (sepBy c d) next (join left right)
        return ⟨found, cd, k.map (.second :: ·) ++ l.map (.first :: ·) ++ m⟩

def runWith (rules : Rules τ) (ts : Array Token)
    (enter : {α : Type} → (p : Parser τ α) → Cells p → Nat → Trace (Visit (Cells p) (Reply α))) :
    {α : Type} → (p : Parser τ α) → Cells p → Nat → Trace (Visit (Cells p) (Reply α))
  | _, _, token text tag, pos =>
    return ⟨Parser.tokenAt ts pos (· == ⟨text, tag⟩), token text tag, []⟩
  | _, _, tagged tag, pos => return ⟨Parser.tokenAt ts pos (·.tag == tag), tagged tag, []⟩
  | _, _, @seq _ _ _ _ p q c d, pos => do
    let ⟨reply, c, k⟩ ← runWith rules ts enter p c pos
    match reply with
    | none => return ⟨none, seq c d, k.map (.first :: ·)⟩
    | some (next, x) =>
      let ⟨reply, d, l⟩ ← runWith rules ts enter q d next
      return ⟨reply.map fun (stop, y) => (stop, (x, y)), seq c d,
        k.map (.first :: ·) ++ l.map (.second :: ·)⟩
  | _, _, @alt _ _ _ p q c d, pos => do
    let ⟨reply, c, k⟩ ← runWith rules ts enter p c pos
    match reply with
    | none =>
      let ⟨reply, d, l⟩ ← runWith rules ts enter q d pos
      return ⟨reply, alt c d, k.map (.first :: ·) ++ l.map (.second :: ·)⟩
    | some found => return ⟨some found, alt c d, k.map (.first :: ·)⟩
  | _, _, @opt _ _ _ p c, pos => do
    let ⟨reply, c, k⟩ ← runWith rules ts enter p c pos
    match reply with
    | none => return ⟨some (pos, none), opt c, k⟩
    | some (stop, x) => return ⟨some (stop, some x), opt c, k⟩
  | _, _, @many _ _ _ p c, pos => do
    let ⟨found, c, k⟩ ← repeatFrom (runWith rules ts enter p) (Parser.rounds ts pos) c pos
    return ⟨some found, many c, k⟩
  | _, _, @map _ _ _ _ f p c, pos => do
    let ⟨reply, c, k⟩ ← runWith rules ts enter p c pos
    return ⟨reply.map fun (stop, x) => (stop, f x), map c, k⟩
  | _, _, @filterMap _ _ _ _ f p c, pos => do
    let ⟨reply, c, k⟩ ← runWith rules ts enter p c pos
    return ⟨reply.bind fun (stop, x) => (f x).map (stop, ·), filterMap c, k⟩
  | _, _, @sepBy _ _ _ p s c d, pos => do
    let ⟨reply, c, k⟩ ← runWith rules ts enter p c pos
    match reply with
    | none => return ⟨none, sepBy c d, k.map (.first :: ·)⟩
    | some (next, x) =>
      let ⟨found, cd, l⟩ ← sepFrom (runWith rules ts enter p) (runWith rules ts enter s)
        (Parser.rounds ts next) (sepBy c d) next x
      return ⟨some found, cd, k.map (.first :: ·) ++ l⟩
  | _, _, @whole _ _ _ p c, pos => do
    let ⟨reply, c, k⟩ ← runWith rules ts enter p c pos
    return ⟨reply.filter fun (stop, _) => stop == ts.size, whole c, k⟩
  | _, _, @probe _ _ _ name p c, pos => do
    let ⟨reply, c, k⟩ ← runWith rules ts enter p c pos
    Trace.record ⟨name, pos, reply.map Prod.fst⟩ ⟨reply, probe c, k⟩
  | _, _, @waiting _ _ _ p, pos => do
    let ⟨reply, c, k⟩ ← enter p (fresh p) pos
    return ⟨reply, ready p c, [] :: k.map (.inside :: ·)⟩
  | _, _, ready held c, pos => do
    let ⟨reply, c, k⟩ ← enter held c pos
    return ⟨reply, ready held c, k.map (.inside :: ·)⟩
  | _, _, @unread _ _ i, pos => do
    let ⟨reply, c, k⟩ ← enter (rules i) (fresh (rules i)) pos
    return ⟨reply, read (rules i) c, [] :: k.map (.inside :: ·)⟩
  | _, _, read held c, pos => do
    let ⟨reply, c, k⟩ ← enter held c pos
    return ⟨reply, read held c, k.map (.inside :: ·)⟩
termination_by structural _ p => p

def enter (rules : Rules τ) (ts : Array Token) : (depth : Nat) → {α : Type} → (p : Parser τ α) →
    Cells p → Nat → Trace (Visit (Cells p) (Reply α))
  | 0, _, _, _, _ => .diverge
  | depth + 1, _, p, c, pos => runWith rules ts (enter rules ts depth) p c pos

def run (rules : Rules τ) (ts : Array Token) (depth : Nat) {p : Parser τ α} (c : Cells p)
    (pos : Nat) : Trace (Visit (Cells p) (Reply α)) :=
  runWith rules ts (enter rules ts depth) p c pos

/-- Every filled cell holds what it was asked to build. -/
def Valid (rules : Rules τ) : {α : Type} → {p : Parser τ α} → Cells p → Prop
  | _, _, token _ _ => True
  | _, _, tagged _ => True
  | _, _, seq c d => c.Valid rules ∧ d.Valid rules
  | _, _, alt c d => c.Valid rules ∧ d.Valid rules
  | _, _, opt c => c.Valid rules
  | _, _, many c => c.Valid rules
  | _, _, map c => c.Valid rules
  | _, _, filterMap c => c.Valid rules
  | _, _, sepBy c d => c.Valid rules ∧ d.Valid rules
  | _, _, whole c => c.Valid rules
  | _, _, probe c => c.Valid rules
  | _, _, waiting => True
  | _, .delay p, ready held c => held = p ∧ c.Valid rules
  | _, _, unread => True
  | _, .rule i, read held c => held = rules i ∧ c.Valid rules

def fork (F G : Set Place) : Set Place := {π | match π with
  | .first :: π => π ∈ F
  | .second :: π => π ∈ G
  | _ => False}

def cell (F : Set Place) : Set Place := {π | match π with
  | [] => True
  | .inside :: π => π ∈ F
  | _ => False}

/-- The places of the filled cells. -/
def filled : {α : Type} → {p : Parser τ α} → Cells p → Set Place
  | _, _, token _ _ => ∅
  | _, _, tagged _ => ∅
  | _, _, seq c d => fork c.filled d.filled
  | _, _, alt c d => fork c.filled d.filled
  | _, _, opt c => c.filled
  | _, _, many c => c.filled
  | _, _, map c => c.filled
  | _, _, filterMap c => c.filled
  | _, _, sepBy c d => fork c.filled d.filled
  | _, _, whole c => c.filled
  | _, _, probe c => c.filled
  | _, _, waiting => ∅
  | _, _, ready _ c => cell c.filled
  | _, _, unread => ∅
  | _, _, read _ c => cell c.filled

def Parts : {α : Type} → (p : Parser τ α) → Cells p → Prop
  | _, .token text tag, C => C = token text tag
  | _, .tagged tag, C => C = tagged tag
  | _, .seq _ _, C => ∃ c d, C = seq c d
  | _, .alt _ _, C => ∃ c d, C = alt c d
  | _, .opt _, C => ∃ c, C = opt c
  | _, .many _, C => ∃ c, C = many c
  | _, .map _ _, C => ∃ c, C = map c
  | _, .filterMap _ _, C => ∃ c, C = filterMap c
  | _, .sepBy _ _, C => ∃ c d, C = sepBy c d
  | _, .whole _, C => ∃ c, C = whole c
  | _, .probe _ _, C => ∃ c, C = probe c
  | _, .delay _, C => C = waiting ∨ ∃ held c, C = ready held c
  | _, .rule _, C => C = unread ∨ ∃ held c, C = read held c

theorem parts {p : Parser τ α} (C : Cells p) : Parts p C := by
  cases C with
  | token | tagged => rfl
  | seq c d | alt c d | sepBy c d => exact ⟨c, d, rfl⟩
  | opt c | many c | map c | filterMap c | whole c | probe c => exact ⟨c, rfl⟩
  | waiting | unread => exact .inl rfl
  | ready held c | read held c => exact .inr ⟨held, c, rfl⟩

variable {rules : Rules τ}

theorem fork_empty : fork ∅ ∅ = ∅ := by
  ext π
  match π with
  | [] | .first :: _ | .second :: _ | .inside :: _ => exact Iff.rfl

theorem filled_fresh (p : Parser τ α) : (fresh p).filled = ∅ := by
  induction p with
  | token | tagged | delay | rule => rfl
  | seq p q ihp ihq | alt p q ihp ihq | sepBy p q ihp ihq =>
    rw [fresh, filled, ihp, ihq, fork_empty]
  | opt p ih | many p ih | map f p ih | filterMap f p ih | whole p ih | probe name p ih => exact ih

theorem valid_fresh (p : Parser τ α) : (fresh p).Valid rules := by
  induction p with
  | token | tagged | delay | rule => trivial
  | seq p q ihp ihq | alt p q ihp ihq | sepBy p q ihp ihq => exact ⟨ihp, ihq⟩
  | opt p ih | many p ih | map f p ih | filterMap f p ih | whole p ih | probe name p ih => exact ih

/-- From the filled places `F` to `F'`, the cells at the places of `V` have been visited, and those
of them that were empty have been filled in the order of the list. -/
structure Grows (V F F' : Set Place) (built : List Place) : Prop where
  after : F' = F ∪ V
  mem : ∀ π, π ∈ built ↔ π ∈ V ∧ π ∉ F
  nodup : built.Nodup

namespace Grows

variable {V W F F' F'' G : Set Place} {k l : List Place}

theorem refl (F : Set Place) : Grows ∅ F F [] := ⟨(Set.union_empty F).symm, by simp, .nil⟩

theorem trans (hk : Grows V F F' k) (hl : Grows W F' F'' l) : Grows (V ∪ W) F F'' (k ++ l) where
  after := by rw [hl.after, hk.after, Set.union_assoc]
  mem π := by
    rw [List.mem_append, hk.mem, hl.mem, hk.after, Set.mem_union, Set.mem_union]
    tauto
  nodup := by
    refine List.nodup_append'.2 ⟨hk.nodup, hl.nodup, fun π hπk hπl => ?_⟩
    have hnot := ((hl.mem π).1 hπl).2
    rw [hk.after] at hnot
    exact hnot (.inr ((hk.mem π).1 hπk).1)

theorem nodup_map (h : Grows V F F' k) (t : Turn) : (k.map (t :: ·)).Nodup :=
  h.nodup.map (List.cons_injective)

theorem first (h : Grows V F F' k) :
    Grows (fork V ∅) (fork F G) (fork F' G) (k.map (.first :: ·)) where
  after := by
    ext π
    match π with
    | .first :: π => simp [fork, h.after]
    | [] | .second :: π | .inside :: π => simp [fork]
  mem π := by
    match π with
    | .first :: π => simpa [fork] using h.mem π
    | [] | .second :: π | .inside :: π => simp [fork]
  nodup := h.nodup_map _

theorem second (h : Grows V F F' k) :
    Grows (fork ∅ V) (fork G F) (fork G F') (k.map (.second :: ·)) where
  after := by
    ext π
    match π with
    | .second :: π => simp [fork, h.after]
    | [] | .first :: π | .inside :: π => simp [fork]
  mem π := by
    match π with
    | .second :: π => simpa [fork] using h.mem π
    | [] | .first :: π | .inside :: π => simp [fork]
  nodup := h.nodup_map _

theorem again (h : Grows V F F' k) :
    Grows (cell V) (cell F) (cell F') (k.map (.inside :: ·)) where
  after := by
    ext π
    match π with
    | .inside :: π => simp [cell, h.after]
    | [] | .first :: π | .second :: π => simp [cell]
  mem π := by
    match π with
    | .inside :: π => simpa [cell] using h.mem π
    | [] | .first :: π | .second :: π => simp [cell]
  nodup := h.nodup_map _

theorem filling (h : Grows V ∅ F' k) :
    Grows (cell V) ∅ (cell F') ([] :: k.map (.inside :: ·)) where
  after := by
    rw [h.after, Set.empty_union, Set.empty_union]
  mem π := by
    match π with
    | .inside :: π => simpa [cell] using h.mem π
    | [] | .first :: π | .second :: π => simp [cell]
  nodup := List.nodup_cons.2 ⟨by simp, h.nodup_map _⟩

end Grows

end Cells

end ImpLang
