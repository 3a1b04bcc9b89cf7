import ImpLang.Parser.Trace
import ImpLang.Token.Basic

namespace ImpLang

/-- Parsers over rows of tokens, as data. The rules of a grammar are referred to by their names, so
that they can refer to each other; `τ i` is the type of the values of rule `i`. -/
inductive Parser {ι : Type} (τ : ι → Type) : Type → Type 1 where
  | token (text : String) (tag : Tag) : Parser τ String
  | tagged (tag : Tag) : Parser τ String
  | seq {α β : Type} (first : Parser τ α) (second : Parser τ β) : Parser τ (α × β)
  /-- The second parser is tried only where the first one does not match. -/
  | alt {α : Type} (first second : Parser τ α) : Parser τ α
  | opt {α : Type} (inner : Parser τ α) : Parser τ (Option α)
  | many {α : Type} (inner : Parser τ α) : Parser τ (List α)
  | map {α β : Type} (f : α → β) (inner : Parser τ α) : Parser τ β
  | filterMap {α β : Type} (f : α → Option β) (inner : Parser τ α) : Parser τ β
  /-- Elements with separators between them, joined from the left as the separators say. -/
  | sepBy {α : Type} (element : Parser τ α) (separator : Parser τ (α → α → α)) : Parser τ α
  | whole {α : Type} (inner : Parser τ α) : Parser τ α
  | probe {α : Type} (name : String) (inner : Parser τ α) : Parser τ α
  /-- A parser that is built when it is first called. -/
  | delay {α : Type} (inner : Parser τ α) : Parser τ α
  | rule (i : ι) : Parser τ (τ i)

abbrev Rules {ι : Type} (τ : ι → Type) : Type 1 := (i : ι) → Parser τ (τ i)

/-- The end of the match and its value; nothing if there is no match. -/
abbrev Reply (α : Type u) : Type u := Option (Nat × α)

def Reply.noMatchMessage : String := "no match"

namespace Parser

variable {ι : Type} {τ : ι → Type} {α β : Type}

/-- The token at a position, if it passes the test: where it ends, and its text. -/
def tokenAt (ts : Array Token) (pos : Nat) (test : Token → Bool) : Reply String :=
  match ts[pos]? with
  | some t => if test t then some (pos + 1, t.text) else none
  | none => none

def repeatFrom (inner : Nat → Trace (Reply α)) : (budget : Nat) → Nat → Trace (Nat × List α)
  | 0, _ => .diverge
  | budget + 1, pos => do
    match ← inner pos with
    | none => return (pos, [])
    | some (next, a) =>
      let (stop, as) ← repeatFrom inner budget next
      return (stop, a :: as)

/-- Goes on with a list after its element that ends at `pos`, at most as long as the budget
allows. A separator without an element behind it is left alone. -/
def sepFrom (element : Nat → Trace (Reply α)) (separator : Nat → Trace (Reply (α → α → α))) :
    (budget : Nat) → Nat → α → Trace (Nat × α)
  | 0, _, _ => .diverge
  | budget + 1, pos, left => do
    match ← separator pos with
    | none => return (pos, left)
    | some (after, join) =>
      match ← element after with
      | none => return (pos, left)
      | some (next, right) => sepFrom element separator budget next (join left right)

/-- Rounds that a loop can make from a position: each but the last one uses up a token. A loop
that makes more of them makes no headway and never ends. -/
def rounds (ts : Array Token) (pos : Nat) : Nat := ts.size - pos + 1

/-- Runs a parser from a position, with `enter` for the parsers it refers to. -/
def runWith (rules : Rules τ) (ts : Array Token)
    (enter : {α : Type} → Parser τ α → Nat → Trace (Reply α)) :
    {α : Type} → Parser τ α → Nat → Trace (Reply α)
  | _, token text tag, pos => return tokenAt ts pos (· == ⟨text, tag⟩)
  | _, tagged tag, pos => return tokenAt ts pos (·.tag == tag)
  | _, seq p q, pos => do
    match ← runWith rules ts enter p pos with
    | none => return none
    | some (next, a) =>
      let reply ← runWith rules ts enter q next
      return reply.map fun (stop, b) => (stop, (a, b))
  | _, alt p q, pos => do
    match ← runWith rules ts enter p pos with
    | none => runWith rules ts enter q pos
    | some found => return some found
  | _, opt p, pos => do
    match ← runWith rules ts enter p pos with
    | none => return some (pos, none)
    | some (stop, a) => return some (stop, some a)
  | _, many p, pos => do
    let found ← repeatFrom (runWith rules ts enter p) (rounds ts pos) pos
    return some found
  | _, map f p, pos => do
    let reply ← runWith rules ts enter p pos
    return reply.map fun (stop, a) => (stop, f a)
  | _, filterMap f p, pos => do
    let reply ← runWith rules ts enter p pos
    return reply.bind fun (stop, a) => (f a).map (stop, ·)
  | _, sepBy p s, pos => do
    match ← runWith rules ts enter p pos with
    | none => return none
    | some (next, a) =>
      let found ←
        sepFrom (runWith rules ts enter p) (runWith rules ts enter s) (rounds ts next) next a
      return some found
  | _, whole p, pos => do
    let reply ← runWith rules ts enter p pos
    return reply.filter fun (stop, _) => stop == ts.size
  | _, probe name p, pos => do
    let reply ← runWith rules ts enter p pos
    Trace.record ⟨name, pos, reply.map Prod.fst⟩ reply
  | _, delay p, pos => enter p pos
  | _, rule i, pos => enter (rules i) pos

def enter (rules : Rules τ) (ts : Array Token) : (depth : Nat) → {α : Type} → Parser τ α → Nat →
    Trace (Reply α)
  | 0, _, _, _ => .diverge
  | depth + 1, _, p, pos => runWith rules ts (enter rules ts depth) p pos

/-- Runs a parser from a position, with at most `depth` calls of delayed parsers and rules nested in
each other. -/
def run (rules : Rules τ) (ts : Array Token) (depth : Nat) {α : Type} (p : Parser τ α)
    (pos : Nat) : Trace (Reply α) :=
  runWith rules ts (enter rules ts depth) p pos

end Parser

end ImpLang
