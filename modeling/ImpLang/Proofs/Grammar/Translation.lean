import ImpLang.Proofs.Grammar.Phrase

namespace ImpLang

/-- The token with another text if it is a name. -/
def Token.rename (ρ : String → String) (t : Token) : Token :=
  if t.tag = .id then .id (ρ t.text) else t

namespace Token

variable {ρ : String → String} {ts us : List Token} {text : String}

theorem map_rename_id (ts : List Token) : ts.map (rename fun x => x) = ts := by
  have h (t : Token) : t.rename (fun x => x) = t := by
    obtain ⟨text, tag⟩ := t
    cases tag <;> rfl
  rw [List.map_congr_left fun t _ => h t, List.map_id']

theorem map_rename_eq_cons {u : Token} (hu : ∀ t : Token, t.rename ρ = u ↔ t = u) :
    ts.map (rename ρ) = u :: us ↔ ∃ rest, ts = u :: rest ∧ rest.map (rename ρ) = us := by
  simp only [List.map_eq_cons_iff, hu]
  constructor
  · rintro ⟨_, rest, rfl, rfl, hrest⟩
    exact ⟨rest, rfl, hrest⟩
  · rintro ⟨rest, rfl, hrest⟩
    exact ⟨u, rest, rfl, rfl, hrest⟩

theorem map_rename_eq_reserved_cons : ts.map (rename ρ) = .reserved text :: us ↔
    ∃ rest, ts = .reserved text :: rest ∧ rest.map (rename ρ) = us := by
  refine map_rename_eq_cons fun t => ?_
  obtain ⟨text', tag⟩ := t
  cases tag <;> simp [rename, reserved, Token.id]

theorem map_rename_eq_int_cons : ts.map (rename ρ) = .int text :: us ↔
    ∃ rest, ts = .int text :: rest ∧ rest.map (rename ρ) = us := by
  refine map_rename_eq_cons fun t => ?_
  obtain ⟨text', tag⟩ := t
  cases tag <;> simp [rename, int, Token.id]

theorem map_rename_eq_id_cons : ts.map (rename ρ) = .id text :: us ↔
    ∃ x rest, ts = .id x :: rest ∧ ρ x = text ∧ rest.map (rename ρ) = us := by
  have h (t : Token) : t.rename ρ = .id text ↔ ∃ x, t = .id x ∧ ρ x = text := by
    obtain ⟨text', tag⟩ := t
    cases tag <;> simp [rename, Token.id]
  simp only [List.map_eq_cons_iff, h]
  constructor
  · rintro ⟨_, rest, rfl, ⟨x, rfl, hx⟩, hrest⟩
    exact ⟨x, rest, rfl, hx, hrest⟩
  · rintro ⟨x, rest, rfl, hx, hrest⟩
    exact ⟨_, rest, rfl, ⟨x, rfl, hx⟩, hrest⟩

end Token

namespace Grammar

variable {T U : Type} [Number T] [Number U]

/-- Trees as trees of the same shape, where each literal has become one of the same spelling, and
each name another name. -/
structure Translation (T U : Type) [Number T] [Number U] where
  literal : T → U
  name : String → String
  arith : Arith T → Arith U
  boolean : Boolean T → Boolean U
  command : Command T → Command U
  denotes {text : String} {n : T} :
    Number.literal? text = some n → Number.literal? text = some (literal n)
  lit (n : T) : arith (.lit n) = .lit (literal n)
  var (x : String) : arith (.var x) = .var (name x)
  binary (o : ArithOp) (l r : Arith T) : arith (.binary o l r) = .binary o (arith l) (arith r)
  compare (rel : Relation) (l r : Arith T) :
    boolean (.compare rel l r) = .compare rel (arith l) (arith r)
  not (b : Boolean T) : boolean (.not b) = .not (boolean b)
  connect (o : Connective) (l r : Boolean T) :
    boolean (.binary o l r) = .binary o (boolean l) (boolean r)
  assign (x : String) (e : Arith T) : command (.assign x e) = .assign (name x) (arith e)
  seq (c d : Command T) : command (.seq c d) = .seq (command c) (command d)
  ifThen (b : Boolean T) (c : Command T) :
    command (.ifThen b c) = .ifThen (boolean b) (command c)
  ifElse (b : Boolean T) (c d : Command T) :
    command (.ifElse b c d) = .ifElse (boolean b) (command c) (command d)
  loop (b : Boolean T) (c : Command T) : command (.loop b c) = .loop (boolean b) (command c)
  print (e : Arith T) : command (.print e) = .print (arith e)

namespace Translation

variable (f : Translation T U)

def value : {κ : Kind} → κ.Value T → κ.Value U
  | .arith => f.arith
  | .boolean => f.boolean
  | .command => f.command

theorem value_join {κ : Kind} (o : κ.Operator) (v w : κ.Value T) :
    f.value (Kind.join o v w) = Kind.join o (f.value v) (f.value w) := by
  cases κ with
  | arith => exact f.binary o v w
  | boolean => exact f.connect o v w
  | command => exact f.seq v w

/-- If the token is a literal over `U`, then it is the translation of a literal over `T`. -/
def Covers (t : Token) : Prop :=
  ∀ text, t = .int text → ∀ n, Number.literal? text = some n →
    ∃ m, Number.literal? text = some m ∧ f.literal m = n

end Translation

namespace Phrase

open Token

variable {κ : Kind} {k : Symbol κ}

def translate (f : Translation T U) : {κ : Kind} → {k : Symbol κ} → Phrase T k → Phrase U k
  | _, _, int text n denotes => .int text (f.literal n) (f.denotes denotes)
  | _, _, name x => .name (f.name x)
  | _, _, group a => .group (a.translate f)
  | _, _, not b => .not (b.translate f)
  | _, _, compare a r b => .compare (a.translate f) r (b.translate f)
  | _, _, condition b => .condition (b.translate f)
  | _, _, assign x a => .assign (f.name x) (a.translate f)
  | _, _, ifThen b c => .ifThen (b.translate f) (c.translate f)
  | _, _, ifElse b c d => .ifElse (b.translate f) (c.translate f) (d.translate f)
  | _, _, loop b c => .loop (b.translate f) (c.translate f)
  | _, _, print a => .print (a.translate f)
  | _, _, one d => .one (d.translate f)
  | _, _, more front o last => .more (front.translate f) o (last.translate f)

theorem word_translate (f : Translation T U) (d : Phrase T k) :
    (d.translate f).word = d.word.map (Token.rename f.name) := by
  induction d with
  | int | name => rfl
  | group a ih | not a ih | condition a ih | assign x a ih | print a ih =>
    simp only [translate, word, ih, List.map_cons, List.map_append, List.map_nil]
    rfl
  | one a ih => exact ih
  | compare a r b iha ihb | ifThen a b iha ihb | loop a b iha ihb | more a r b iha ihb =>
    simp only [translate, word, iha, ihb, List.map_cons, List.map_append, List.map_nil]
    rfl
  | ifElse b c d ihb ihc ihd =>
    simp only [translate, word, ihb, ihc, ihd, List.map_cons, List.map_append, List.map_nil]
    rfl

theorem value_translate (f : Translation T U) (d : Phrase T k) :
    (d.translate f).value = f.value d.value := by
  induction d with
  | int text n denotes => exact (f.lit n).symm
  | name x => exact (f.var x).symm
  | group a ih | condition a ih | one a ih => exact ih
  | not b ih =>
    rw [translate, value, ih]
    exact (f.not _).symm
  | compare a r b iha ihb =>
    rw [translate, value, iha, ihb]
    exact (f.compare ..).symm
  | assign x a ih =>
    rw [translate, value, ih]
    exact (f.assign ..).symm
  | ifThen b c ihb ihc =>
    rw [translate, value, ihb, ihc]
    exact (f.ifThen ..).symm
  | ifElse b c d ihb ihc ihd =>
    rw [translate, value, ihb, ihc, ihd]
    exact (f.ifElse ..).symm
  | loop b c ihb ihc =>
    rw [translate, value, ihb, ihc]
    exact (f.loop ..).symm
  | print a ih =>
    rw [translate, value, ih]
    exact (f.print _).symm
  | more front o last ihf ihl => rw [translate, value, ihf, ihl, value, f.value_join]

theorem exists_translate_eq {f : Translation T U} (d : Phrase U k) {ts : List Token}
    (h : ts.map (Token.rename f.name) = d.word) (hts : ∀ t ∈ ts, f.Covers t) :
    ∃ e : Phrase T k, e.word = ts ∧ e.translate f = d := by
  induction d generalizing ts with
  | int text n denotes =>
    simp only [word, map_rename_eq_int_cons, List.map_eq_nil_iff] at h
    obtain ⟨_, rfl, rfl⟩ := h
    obtain ⟨m, hm, rfl⟩ := hts _ (by simp) text rfl n denotes
    exact ⟨.int text m hm, rfl, rfl⟩
  | name y =>
    simp only [word, map_rename_eq_id_cons, List.map_eq_nil_iff] at h
    obtain ⟨x, _, rfl, rfl, rfl⟩ := h
    exact ⟨.name x, rfl, rfl⟩
  | group a ih =>
    simp only [word, map_rename_eq_reserved_cons, List.map_eq_append_iff, List.map_eq_nil_iff] at h
    obtain ⟨_, rfl, _, _, rfl, ha, _, rfl, rfl⟩ := h
    obtain ⟨a, rfl, rfl⟩ := ih ha fun t ht => hts t (by simp [ht])
    exact ⟨.group a, rfl, rfl⟩
  | not b ih =>
    simp only [word, map_rename_eq_reserved_cons] at h
    obtain ⟨_, rfl, hb⟩ := h
    obtain ⟨b, rfl, rfl⟩ := ih hb fun t ht => hts t (by simp [ht])
    exact ⟨.not b, rfl, rfl⟩
  | compare a r b iha ihb =>
    simp only [word, Relop.token, map_rename_eq_reserved_cons, List.map_eq_append_iff] at h
    obtain ⟨_, _, rfl, ha, _, rfl, hb⟩ := h
    obtain ⟨a, rfl, rfl⟩ := iha ha fun t ht => hts t (by simp [ht])
    obtain ⟨b, rfl, rfl⟩ := ihb hb fun t ht => hts t (by simp [ht])
    exact ⟨.compare a r b, rfl, rfl⟩
  | condition b ih =>
    simp only [word, map_rename_eq_reserved_cons, List.map_eq_append_iff, List.map_eq_nil_iff] at h
    obtain ⟨_, rfl, _, _, rfl, hb, _, rfl, rfl⟩ := h
    obtain ⟨b, rfl, rfl⟩ := ih hb fun t ht => hts t (by simp [ht])
    exact ⟨.condition b, rfl, rfl⟩
  | assign y a ih =>
    simp only [word, map_rename_eq_id_cons, map_rename_eq_reserved_cons] at h
    obtain ⟨x, _, rfl, rfl, _, rfl, ha⟩ := h
    obtain ⟨a, rfl, rfl⟩ := ih ha fun t ht => hts t (by simp [ht])
    exact ⟨.assign x a, rfl, rfl⟩
  | ifThen b c ihb ihc =>
    simp only [word, map_rename_eq_reserved_cons, List.map_eq_append_iff, List.map_eq_nil_iff] at h
    obtain ⟨_, rfl, _, _, rfl, hb, _, rfl, _, _, rfl, hc, _, rfl, rfl⟩ := h
    obtain ⟨b, rfl, rfl⟩ := ihb hb fun t ht => hts t (by simp [ht])
    obtain ⟨c, rfl, rfl⟩ := ihc hc fun t ht => hts t (by simp [ht])
    exact ⟨.ifThen b c, rfl, rfl⟩
  | ifElse b c d ihb ihc ihd =>
    simp only [word, map_rename_eq_reserved_cons, List.map_eq_append_iff, List.map_eq_nil_iff] at h
    obtain ⟨_, rfl, _, _, rfl, hb, _, rfl, _, _, rfl, hc, _, rfl, _, _, rfl, hd, _, rfl, rfl⟩ := h
    obtain ⟨b, rfl, rfl⟩ := ihb hb fun t ht => hts t (by simp [ht])
    obtain ⟨c, rfl, rfl⟩ := ihc hc fun t ht => hts t (by simp [ht])
    obtain ⟨d, rfl, rfl⟩ := ihd hd fun t ht => hts t (by simp [ht])
    exact ⟨.ifElse b c d, rfl, rfl⟩
  | loop b c ihb ihc =>
    simp only [word, map_rename_eq_reserved_cons, List.map_eq_append_iff, List.map_eq_nil_iff] at h
    obtain ⟨_, rfl, _, _, rfl, hb, _, rfl, _, _, rfl, hc, _, rfl, rfl⟩ := h
    obtain ⟨b, rfl, rfl⟩ := ihb hb fun t ht => hts t (by simp [ht])
    obtain ⟨c, rfl, rfl⟩ := ihc hc fun t ht => hts t (by simp [ht])
    exact ⟨.loop b c, rfl, rfl⟩
  | print a ih =>
    simp only [word, map_rename_eq_reserved_cons] at h
    obtain ⟨_, rfl, ha⟩ := h
    obtain ⟨a, rfl, rfl⟩ := ih ha fun t ht => hts t (by simp [ht])
    exact ⟨.print a, rfl, rfl⟩
  | one a ih =>
    obtain ⟨a, rfl, rfl⟩ := ih h hts
    exact ⟨.one a, rfl, rfl⟩
  | more front o last ihf ihl =>
    simp only [word, Level.Op.token, map_rename_eq_reserved_cons, List.map_eq_append_iff] at h
    obtain ⟨_, _, rfl, hfront, _, rfl, hlast⟩ := h
    obtain ⟨front, rfl, rfl⟩ := ihf hfront fun t ht => hts t (by simp [ht])
    obtain ⟨last, rfl, rfl⟩ := ihl hlast fun t ht => hts t (by simp [ht])
    exact ⟨.more front o last, rfl, rfl⟩

end Phrase

namespace Translation

variable {f : Translation T U} {κ : Kind} {k : Symbol κ} {ts : List Token}

theorem derives (f : Translation T U) {v : κ.Value T} (h : Derives k ts v) :
    Derives k (ts.map (Token.rename f.name)) (f.value v) := by
  obtain ⟨d, rfl, rfl⟩ := h
  exact ⟨d.translate f, d.word_translate f, d.value_translate f⟩

theorem derives_iff (hts : ∀ t ∈ ts, f.Covers t) {v : κ.Value U} :
    Derives k (ts.map (Token.rename f.name)) v ↔ ∃ u, Derives k ts u ∧ f.value u = v := by
  constructor
  · rintro ⟨d, hword, rfl⟩
    obtain ⟨e, rfl, rfl⟩ := d.exists_translate_eq hword.symm hts
    exact ⟨e.value, ⟨e, rfl, rfl⟩, (e.value_translate f).symm⟩
  · rintro ⟨u, hu, rfl⟩
    exact f.derives hu

end Translation

end Grammar

end ImpLang
