import ImpLang.Command.Grammar

namespace ImpLang.Grammar

inductive Kind where
  | arith
  | boolean
  | command

namespace Kind

abbrev Value (T : Type) : Kind → Type
  | arith => Arith T
  | boolean => Boolean T
  | command => Command T

abbrev Operator : Kind → Type
  | arith => ArithOp
  | boolean => Connective
  | command => Unit

def symbol : {κ : Kind} → κ.Operator → String
  | arith, o => ArithOp.symbol o
  | boolean, o => Connective.symbol o
  | command, _ => ";"

def join {T : Type} : {κ : Kind} → κ.Operator → κ.Value T → κ.Value T → κ.Value T
  | arith, o => Arith.binary o
  | boolean, o => Boolean.binary o
  | command, _ => Command.seq

end Kind

inductive Level : Kind → Type where
  | product : Level .arith
  | sum : Level .arith
  | conjunction : Level .boolean
  | disjunction : Level .boolean
  | sequence : Level .command

inductive Symbol : Kind → Type where
  | factor : Symbol .arith
  | operand : Symbol .boolean
  | statement : Symbol .command
  | list {κ : Kind} (l : Level κ) : Symbol κ

namespace Symbol

abbrev aexp : Symbol .arith := list .sum

abbrev bexp : Symbol .boolean := list .disjunction

abbrev statements : Symbol .command := list .sequence

end Symbol

namespace Level

abbrev element : {κ : Kind} → Level κ → Symbol κ
  | _, product => .factor
  | _, sum => .list product
  | _, conjunction => .operand
  | _, disjunction => .list conjunction
  | _, sequence => .statement

def operators : {κ : Kind} → Level κ → List κ.Operator
  | _, product => [.mul, .div]
  | _, sum => [.add, .sub]
  | _, conjunction => [.and]
  | _, disjunction => [.or]
  | _, sequence => [()]

abbrev Op {κ : Kind} (l : Level κ) : Type := {o : κ.Operator // o ∈ l.operators}

def Op.token {κ : Kind} {l : Level κ} (o : l.Op) : Token := .reserved (Kind.symbol o.1)

end Level

def relations : List (String × Relation) :=
  [("<", .lt), ("<=", .le), (">", .gt), (">=", .ge), ("=", .eq), ("==", .eq), ("!=", .ne)]

/-- A relation together with one of its spellings. -/
abbrev Relop : Type := {r : String × Relation // r ∈ relations}

def Relop.token (r : Relop) : Token := .reserved r.1.1

/-- The trees of derivations of the grammar, which has no priorities between its alternatives. A
list goes on to the left.

    aexp        ::= product (('+' | '-') product)*
    product     ::= factor (('*' | '/') factor)*
    factor      ::= INT | ID | '(' aexp ')'
    bexp        ::= conjunction ('or' conjunction)*
    conjunction ::= operand ('and' operand)*
    operand     ::= 'not' operand | aexp relop aexp | '(' bexp ')'
    stmt_list   ::= stmt (';' stmt)*
    stmt        ::= ID ':=' aexp | 'print' aexp | 'while' bexp 'do' stmt_list 'end'
                  | 'if' bexp 'then' stmt_list ['else' stmt_list] 'end' -/
inductive Phrase (T : Type) [Number T] : {κ : Kind} → Symbol κ → Type where
  | int (text : String) (n : T) (denotes : Number.literal? text = some n) : Phrase T .factor
  | name (x : String) : Phrase T .factor
  | group (inner : Phrase T .aexp) : Phrase T .factor
  | not (inner : Phrase T .operand) : Phrase T .operand
  | compare (left : Phrase T .aexp) (rel : Relop) (right : Phrase T .aexp) : Phrase T .operand
  | condition (inner : Phrase T .bexp) : Phrase T .operand
  | assign (x : String) (value : Phrase T .aexp) : Phrase T .statement
  | ifThen (condition : Phrase T .bexp) (body : Phrase T .statements) : Phrase T .statement
  | ifElse (condition : Phrase T .bexp) (body other : Phrase T .statements) : Phrase T .statement
  | loop (condition : Phrase T .bexp) (body : Phrase T .statements) : Phrase T .statement
  | print (value : Phrase T .aexp) : Phrase T .statement
  | one {κ : Kind} {l : Level κ} (only : Phrase T l.element) : Phrase T (.list l)
  | more {κ : Kind} {l : Level κ} (front : Phrase T (.list l)) (o : l.Op)
      (last : Phrase T l.element) : Phrase T (.list l)

namespace Phrase

variable {T : Type} [Number T] {κ : Kind}

def word : {κ : Kind} → {k : Symbol κ} → Phrase T k → List Token
  | _, _, int text _ _ => [.int text]
  | _, _, name x => [.id x]
  | _, _, group d => .reserved "(" :: (d.word ++ [.reserved ")"])
  | _, _, not d => .reserved "not" :: d.word
  | _, _, compare d r e => d.word ++ r.token :: e.word
  | _, _, condition d => .reserved "(" :: (d.word ++ [.reserved ")"])
  | _, _, assign x d => .id x :: .reserved ":=" :: d.word
  | _, _, ifThen b c =>
    .reserved "if" :: (b.word ++ .reserved "then" :: (c.word ++ [.reserved "end"]))
  | _, _, ifElse b c d =>
    .reserved "if" :: (b.word ++ .reserved "then" ::
      (c.word ++ .reserved "else" :: (d.word ++ [.reserved "end"])))
  | _, _, loop b c =>
    .reserved "while" :: (b.word ++ .reserved "do" :: (c.word ++ [.reserved "end"]))
  | _, _, print d => .reserved "print" :: d.word
  | _, _, one d => d.word
  | _, _, more front o last => front.word ++ o.token :: last.word

def value : {κ : Kind} → {k : Symbol κ} → Phrase T k → κ.Value T
  | _, _, int _ n _ => .lit n
  | _, _, name x => .var x
  | _, _, group d => d.value
  | _, _, not d => .not d.value
  | _, _, compare d r e => .compare r.1.2 d.value e.value
  | _, _, condition d => d.value
  | _, _, assign x d => .assign x d.value
  | _, _, ifThen b c => .ifThen b.value c.value
  | _, _, ifElse b c d => .ifElse b.value c.value d.value
  | _, _, loop b c => .loop b.value c.value
  | _, _, print d => .print d.value
  | _, _, one d => d.value
  | _, _, more front o last => Kind.join o.1 front.value last.value

variable {l : Level κ}

def first : Phrase T (.list l) → Phrase T l.element
  | one d => d
  | more front _ _ => front.first

def others : Phrase T (.list l) → List (l.Op × Phrase T l.element)
  | one _ => []
  | more front o last => front.others ++ [(o, last)]

def tailWord (ps : List (l.Op × Phrase T l.element)) : List Token :=
  ps.flatMap fun p => p.1.token :: p.2.word

@[simp] theorem tailWord_nil : tailWord ([] : List (l.Op × Phrase T l.element)) = [] := rfl

@[simp] theorem tailWord_cons (p : l.Op × Phrase T l.element)
    (ps : List (l.Op × Phrase T l.element)) :
    tailWord (p :: ps) = p.1.token :: (p.2.word ++ tailWord ps) := by
  simp [tailWord]

theorem tailWord_append (ps qs : List (l.Op × Phrase T l.element)) :
    tailWord (ps ++ qs) = tailWord ps ++ tailWord qs := by
  simp [tailWord]

theorem word_eq : (d : Phrase T (.list l)) → d.word = d.first.word ++ tailWord d.others
  | one d => by simp [word, first, others]
  | more front o last => by
    simp only [word, first, others, tailWord_append, tailWord_cons, tailWord_nil]
    rw [word_eq front]
    simp

theorem eq_of_first_of_others : (d e : Phrase T (.list l)) → d.first = e.first →
    d.others = e.others → d = e
  | one d, one e, hf, _ => by
    simp only [first] at hf
    rw [hf]
  | one _, more .., _, ho => by simp [others] at ho
  | more .., one _, _, ho => by simp [others] at ho
  | more front o last, more front' o' last', hf, ho => by
    simp only [first] at hf
    simp only [others] at ho
    obtain ⟨hfront, hlast⟩ := List.append_inj' ho rfl
    obtain ⟨rfl, rfl⟩ := Prod.mk.inj (List.cons.inj hlast).1
    rw [eq_of_first_of_others front front' hf hfront]

theorem sizeOf_first_lt : (d : Phrase T (.list l)) → sizeOf d.first < sizeOf d
  | one d => by
    simp only [first, one.sizeOf_spec]
    omega
  | more front o last => by
    have h := sizeOf_first_lt front
    simp only [first, more.sizeOf_spec]
    omega

theorem sizeOf_lt_of_mem_others : (d : Phrase T (.list l)) → ∀ p ∈ d.others, sizeOf p.2 < sizeOf d
  | one _, p, hp => by simp [others] at hp
  | more front o last, p, hp => by
    simp only [more.sizeOf_spec]
    simp only [others] at hp
    obtain h | h := List.mem_append.1 hp
    · have := sizeOf_lt_of_mem_others front p h
      omega
    · cases List.mem_singleton.1 h
      simp only
      omega

@[elab_as_elim]
theorem elements_induction {motive : ∀ {κ : Kind} {k : Symbol κ}, Phrase T k → Prop}
    (int : ∀ text n denotes, motive (.int text n denotes))
    (name : ∀ x, motive (.name x))
    (group : ∀ inner, motive inner → motive (.group inner))
    (not : ∀ inner, motive inner → motive (.not inner))
    (compare : ∀ left rel right, motive left → motive right → motive (.compare left rel right))
    (condition : ∀ inner, motive inner → motive (.condition inner))
    (assign : ∀ x value, motive value → motive (.assign x value))
    (ifThen : ∀ b c, motive b → motive c → motive (.ifThen b c))
    (ifElse : ∀ b c d, motive b → motive c → motive d → motive (.ifElse b c d))
    (loop : ∀ b c, motive b → motive c → motive (.loop b c))
    (print : ∀ value, motive value → motive (.print value))
    (list : ∀ {κ : Kind} {l : Level κ} (d : Phrase T (.list l)), motive d.first →
      (∀ p ∈ d.others, motive p.2) → motive d)
    {κ : Kind} {k : Symbol κ} (d : Phrase T k) : motive d := by
  induction hn : sizeOf d using Nat.strongRecOn generalizing κ k with
  | ind n ih =>
    subst hn
    have sub {κ : Kind} {k : Symbol κ} (e : Phrase T k) (h : sizeOf e < sizeOf d) : motive e :=
      ih _ h e rfl
    cases d with
    | int text n denotes => exact int text n denotes
    | name x => exact name x
    | group a =>
      have hsize := Phrase.group.sizeOf_spec a
      exact group a (sub a (by omega))
    | not b =>
      have hsize := Phrase.not.sizeOf_spec b
      exact not b (sub b (by omega))
    | compare a r b =>
      have hsize := Phrase.compare.sizeOf_spec a r b
      exact compare a r b (sub a (by omega)) (sub b (by omega))
    | condition b =>
      have hsize := Phrase.condition.sizeOf_spec b
      exact condition b (sub b (by omega))
    | assign x a =>
      have hsize := Phrase.assign.sizeOf_spec x a
      exact assign x a (sub a (by omega))
    | ifThen b c =>
      have hsize := Phrase.ifThen.sizeOf_spec b c
      exact ifThen b c (sub b (by omega)) (sub c (by omega))
    | ifElse b c d =>
      have hsize := Phrase.ifElse.sizeOf_spec b c d
      exact ifElse b c d (sub b (by omega)) (sub c (by omega)) (sub d (by omega))
    | loop b c =>
      have hsize := Phrase.loop.sizeOf_spec b c
      exact loop b c (sub b (by omega)) (sub c (by omega))
    | print a =>
      have hsize := Phrase.print.sizeOf_spec a
      exact print a (sub a (by omega))
    | one e =>
      exact list (.one e) (sub _ (sizeOf_first_lt _))
        fun p hp => sub p.2 (sizeOf_lt_of_mem_others _ p hp)
    | more front o last =>
      exact list (.more front o last) (sub _ (sizeOf_first_lt _))
        fun p hp => sub p.2 (sizeOf_lt_of_mem_others _ p hp)

theorem word_ne_nil {k : Symbol κ} (d : Phrase T k) : d.word ≠ [] := by
  induction d using elements_induction with
  | list d ih _ =>
    rw [word_eq]
    exact List.append_ne_nil_of_left_ne_nil ih _
  | _ => simp [word]

end Phrase

/-- The symbol derives the word, with that value. -/
def Derives {T : Type} [Number T] {κ : Kind} (k : Symbol κ) (w : List Token) (v : κ.Value T) :
    Prop :=
  ∃ d : Phrase T k, d.word = w ∧ d.value = v

end ImpLang.Grammar
