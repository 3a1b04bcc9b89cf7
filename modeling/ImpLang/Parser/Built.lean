import ImpLang.Parser.Basic

namespace ImpLang

/-- Which delayed parts and rules of a parser have been built. A built piece is the parser that it
was asked to be, so nothing else has to be kept of it. -/
inductive Built where
  | nothing
  | both (first second : Built)
  | ready (inner : Built)
deriving DecidableEq, Repr

structure Progress (σ α : Type) where
  value : α
  record : σ
  count : Nat

namespace Built

def first : Built → Built
  | both b _ => b
  | _ => nothing

def second : Built → Built
  | both _ c => c
  | _ => nothing

def inside : Built → Built
  | ready b => b
  | _ => nothing

def isReady : Built → Bool
  | ready _ => true
  | _ => false

def describe (b : Built) : String :=
  "Lazy \x7b forced: " ++ toString b.isReady ++ ", .. \x7d"

def missing (b : Built) : Nat := if b.isReady then 0 else 1

variable {ι α : Type} {τ : ι → Type}

def repeatFrom (inner : Built → Nat → Trace (Progress Built (Reply α))) :
    (budget : Nat) → Built → Nat → Trace (Progress Built (Nat × List α))
  | 0, _, _ => .diverge
  | budget + 1, b, pos => do
    let ⟨reply, b, k⟩ ← inner b pos
    match reply with
    | none => return ⟨(pos, []), b, k⟩
    | some (next, a) =>
      let ⟨(stop, as), b, l⟩ ← repeatFrom inner budget b next
      return ⟨(stop, a :: as), b, k + l⟩

def sepFrom (element : Built → Nat → Trace (Progress Built (Reply α)))
    (separator : Built → Nat → Trace (Progress Built (Reply (α → α → α)))) :
    (budget : Nat) → Built × Built → Nat → α → Trace (Progress (Built × Built) (Nat × α))
  | 0, _, _, _ => .diverge
  | budget + 1, (b, c), pos, left => do
    let ⟨reply, c, k⟩ ← separator c pos
    match reply with
    | none => return ⟨(pos, left), (b, c), k⟩
    | some (after, join) =>
      let ⟨reply, b, l⟩ ← element b after
      match reply with
      | none => return ⟨(pos, left), (b, c), k + l⟩
      | some (next, right) =>
        let ⟨found, bc, m⟩ ← sepFrom element separator budget (b, c) next (join left right)
        return ⟨found, bc, k + l + m⟩

def runWith (rules : Rules τ) (ts : Array Token)
    (enter : {α : Type} → Parser τ α → Built → Nat → Trace (Progress Built (Reply α))) :
    {α : Type} → Parser τ α → Built → Nat → Trace (Progress Built (Reply α))
  | _, .token text tag, b, pos => return ⟨Parser.tokenAt ts pos (· == ⟨text, tag⟩), b, 0⟩
  | _, .tagged tag, b, pos => return ⟨Parser.tokenAt ts pos (·.tag == tag), b, 0⟩
  | _, .seq p q, b, pos => do
    let ⟨reply, c, k⟩ ← runWith rules ts enter p b.first pos
    match reply with
    | none => return ⟨none, both c b.second, k⟩
    | some (next, x) =>
      let ⟨reply, d, l⟩ ← runWith rules ts enter q b.second next
      return ⟨reply.map fun (stop, y) => (stop, (x, y)), both c d, k + l⟩
  | _, .alt p q, b, pos => do
    let ⟨reply, c, k⟩ ← runWith rules ts enter p b.first pos
    match reply with
    | none =>
      let ⟨reply, d, l⟩ ← runWith rules ts enter q b.second pos
      return ⟨reply, both c d, k + l⟩
    | some found => return ⟨some found, both c b.second, k⟩
  | _, .opt p, b, pos => do
    let ⟨reply, b, k⟩ ← runWith rules ts enter p b pos
    match reply with
    | none => return ⟨some (pos, none), b, k⟩
    | some (stop, x) => return ⟨some (stop, some x), b, k⟩
  | _, .many p, b, pos => do
    let ⟨found, b, k⟩ ← repeatFrom (runWith rules ts enter p) (Parser.rounds ts pos) b pos
    return ⟨some found, b, k⟩
  | _, .map f p, b, pos => do
    let ⟨reply, b, k⟩ ← runWith rules ts enter p b pos
    return ⟨reply.map fun (stop, x) => (stop, f x), b, k⟩
  | _, .filterMap f p, b, pos => do
    let ⟨reply, b, k⟩ ← runWith rules ts enter p b pos
    return ⟨reply.bind fun (stop, x) => (f x).map (stop, ·), b, k⟩
  | _, .sepBy p s, b, pos => do
    let ⟨reply, c, k⟩ ← runWith rules ts enter p b.first pos
    match reply with
    | none => return ⟨none, both c b.second, k⟩
    | some (next, x) =>
      let ⟨found, (c, d), l⟩ ← sepFrom (runWith rules ts enter p) (runWith rules ts enter s)
        (Parser.rounds ts next) (c, b.second) next x
      return ⟨some found, both c d, k + l⟩
  | _, .whole p, b, pos => do
    let ⟨reply, b, k⟩ ← runWith rules ts enter p b pos
    return ⟨reply.filter fun (stop, _) => stop == ts.size, b, k⟩
  | _, .probe name p, b, pos => do
    let ⟨reply, b, k⟩ ← runWith rules ts enter p b pos
    Trace.record ⟨name, pos, reply.map Prod.fst⟩ ⟨reply, b, k⟩
  | _, .delay p, b, pos => do
    let ⟨reply, c, k⟩ ← enter p b.inside pos
    return ⟨reply, ready c, b.missing + k⟩
  | _, .rule i, b, pos => do
    let ⟨reply, c, k⟩ ← enter (rules i) b.inside pos
    return ⟨reply, ready c, b.missing + k⟩

def enter (rules : Rules τ) (ts : Array Token) : (depth : Nat) → {α : Type} → Parser τ α → Built →
    Nat → Trace (Progress Built (Reply α))
  | 0, _, _, _, _ => .diverge
  | depth + 1, _, p, b, pos => runWith rules ts (enter rules ts depth) p b pos

def run (rules : Rules τ) (ts : Array Token) (depth : Nat) {α : Type} (p : Parser τ α) (b : Built)
    (pos : Nat) : Trace (Progress Built (Reply α)) :=
  runWith rules ts (enter rules ts depth) p b pos

end Built

end ImpLang
