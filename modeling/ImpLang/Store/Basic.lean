import ImpLang.Number.Basic

namespace ImpLang

/-- The values of the variables that are bound, in strictly increasing order of their names. -/
structure Store (T : Type) where
  bindings : List (String × T)
  sorted : bindings.Pairwise fun a b => a.1 < b.1
deriving DecidableEq

namespace Store

variable {T : Type}

def empty : Store T := ⟨[], .nil⟩

instance : Inhabited (Store T) := ⟨empty⟩

/-- Puts a binding in its place, instead of an earlier one of the same name. -/
def put (x : String) (v : T) : List (String × T) → List (String × T)
  | [] => [(x, v)]
  | (y, w) :: rest =>
    if x < y then (x, v) :: (y, w) :: rest
    else if x = y then (x, v) :: rest
    else (y, w) :: put x v rest

theorem mem_put {x : String} {v : T} {l : List (String × T)} {b : String × T}
    (h : b ∈ put x v l) : b = (x, v) ∨ b ∈ l := by
  fun_induction put x v l <;> grind

theorem pairwise_put {x : String} {v : T} {l : List (String × T)}
    (h : l.Pairwise fun a b => a.1 < b.1) : (put x v l).Pairwise fun a b => a.1 < b.1 := by
  fun_induction put x v l with
  | case1 => simp
  | case2 y w rest hxy =>
    refine List.pairwise_cons.2 ⟨fun b hb => ?_, h⟩
    obtain rfl | hb := List.mem_cons.1 hb
    · exact hxy
    · exact String.lt_trans hxy ((List.pairwise_cons.1 h).1 b hb)
  | case3 w rest hxy =>
    exact List.pairwise_cons.2 (List.pairwise_cons.1 h)
  | case4 y w rest hxy hne ih =>
    refine List.pairwise_cons.2 ⟨fun b hb => ?_, ih (List.pairwise_cons.1 h).2⟩
    obtain rfl | hb := mem_put hb
    · exact Decidable.byContradiction fun hyx =>
        hne (String.le_antisymm (String.not_lt.1 hyx) (String.not_lt.1 hxy))
    · exact (List.pairwise_cons.1 h).1 b hb

def insert (s : Store T) (x : String) (v : T) : Store T :=
  ⟨put x v s.bindings, pairwise_put s.sorted⟩

/-- The bindings of a list; of two with the same name the later one counts. -/
def ofList (l : List (String × T)) : Store T := l.foldl (fun s (x, v) => s.insert x v) empty

def toList (s : Store T) : List (String × T) := s.bindings

def get? (s : Store T) (x : String) : Option T := (s.bindings.find? (·.1 == x)).map Prod.snd

def map {U : Type} (f : T → U) (s : Store T) : Store U :=
  ⟨s.bindings.map fun (x, v) => (x, f v), List.pairwise_map.2 s.sorted⟩

/-- The value of a variable, zero if it is not bound. -/
def lookup [Number T] (s : Store T) (x : String) : T := (s.get? x).getD Number.zero

theorem find?_put (x : String) (v : T) (l : List (String × T)) (y : String) :
    (put x v l).find? (·.1 == y) = if y = x then some (x, v) else l.find? (·.1 == y) := by
  fun_induction put x v l <;> grind

theorem get?_insert (s : Store T) (x : String) (v : T) (y : String) :
    (s.insert x v).get? y = if y = x then some v else s.get? y := by
  rw [get?, insert, find?_put]
  split <;> rfl

theorem lookup_insert [Number T] (s : Store T) (x : String) (v : T) (y : String) :
    (s.insert x v).lookup y = if y = x then v else s.lookup y := by
  rw [lookup, get?_insert]
  split <;> rfl

def size (s : Store T) : Nat := s.bindings.length

def isEmpty (s : Store T) : Bool := s.bindings.isEmpty

def renderBinding [Number T] (b : String × T) : String := b.1 ++ ": " ++ Number.render b.2

def render [Number T] (s : Store T) : String :=
  if s.isEmpty then "\x7b\x7d"
  else "\x7b " ++ ", ".intercalate (s.bindings.map renderBinding) ++ " \x7d"

end Store

end ImpLang
