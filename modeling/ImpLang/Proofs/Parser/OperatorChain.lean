import ImpLang.Proofs.Parser.Language
import ImpLang.Parser.Precedence

namespace ImpLang.Parser

variable {ι : Type} {τ : ι → Type} {α ω : Type} {rules : Rules τ} {ts : Array Token}
  {depth pos mid stop : Nat} {symbol : ω → String} {ops : List ω}

/-- The operator at a position: the first one of the list whose symbol stands there. -/
def operatorAt (symbol : ω → String) (ts : Array Token) (pos : Nat) (ops : List ω) : Option ω :=
  ops.find? fun o => ts[pos]? = some (.reserved (symbol o))

theorem operatorAt_append (ops more : List ω) :
    operatorAt symbol ts pos (ops ++ more) =
      (operatorAt symbol ts pos ops).or (operatorAt symbol ts pos more) :=
  List.find?_append

theorem getElem?_of_operatorAt {o : ω} (h : operatorAt symbol ts pos ops = some o) :
    ts[pos]? = some (.reserved (symbol o)) := by
  have ho := List.find?_some h
  exact of_decide_eq_true ho

theorem lt_size_of_operatorAt {o : ω} (h : operatorAt symbol ts pos ops = some o) :
    pos < ts.size := by
  obtain ⟨hlt, -⟩ := Array.getElem?_eq_some_iff.1 (getElem?_of_operatorAt h)
  exact hlt

theorem replies_symbolFor {o : ω} {r : Reply ω} :
    Replies rules ts depth (symbolFor symbol o) pos r ↔
      r = (operatorAt symbol ts pos [o]).map (pos + 1, ·) := by
  have htoken : (tokenAt ts pos (· == ⟨symbol o, .reserved⟩)).map (fun (stop, _) => (stop, o)) =
      (operatorAt symbol ts pos [o]).map (pos + 1, ·) := by
    rw [tokenAt, operatorAt]
    cases ts[pos]? with
    | none => rfl
    | some t =>
      by_cases ht : t = .reserved (symbol o)
      · simp [ht, Token.reserved]
      · have hne : ¬ t = ⟨symbol o, .reserved⟩ := ht
        simp [ht, hne]
  rw [symbolFor, replies_map, ← htoken]
  constructor
  · rintro ⟨s, hs, rfl⟩
    rw [replies_token.1 hs]
  · rintro rfl
    exact ⟨_, replies_token.2 rfl, rfl⟩

theorem replies_choice {p : Parser τ ω} {x : Option ω}
    (hp : ∀ r, Replies rules ts depth p pos r ↔ r = x.map (pos + 1, ·)) {r : Reply ω} :
    Replies rules ts depth (choice p (ops.map (symbolFor symbol))) pos r ↔
      r = (x.or (operatorAt symbol ts pos ops)).map (pos + 1, ·) := by
  induction ops generalizing p x with
  | nil => simpa [choice, operatorAt] using hp r
  | cons o ops ih =>
    have hcons : operatorAt symbol ts pos (o :: ops) =
        (operatorAt symbol ts pos [o]).or (operatorAt symbol ts pos ops) :=
      operatorAt_append [o] ops
    rw [hcons, ← Option.or_assoc]
    refine @ih (.alt p (symbolFor symbol o)) _ fun s => ?_
    rw [replies_alt]
    simp only [hp, replies_symbolFor]
    cases x <;> simp

theorem replies_oneOf {o : ω} {os : List ω} {β : Type} {f : ω → β} {r : Reply β} :
    Replies rules ts depth (.map f (oneOf symbol o os)) pos r ↔
      r = (operatorAt symbol ts pos (o :: os)).map fun q => (pos + 1, f q) := by
  have hone : ∀ s, Replies rules ts depth (oneOf symbol o os) pos s ↔
      s = (operatorAt symbol ts pos (o :: os)).map (pos + 1, ·) := by
    intro s
    rw [oneOf, replies_choice fun _ => replies_symbolFor, ← operatorAt_append]
    rfl
  simp only [replies_map, hone]
  simp [Option.map_map, Function.comp_def]

/-- What follows an operand that ends at a position: operators, each with an operand behind it, as
long as there are any. An operator without an operand is left alone. -/
inductive Greedy (rules : Rules τ) (ts : Array Token) (depth : Nat) (symbol : ω → String)
    (ops : List ω) (operand : Parser τ α) : Nat → List (ω × α) → Nat → Prop where
  | done {pos : Nat} (h : operatorAt symbol ts pos ops = none) :
    Greedy rules ts depth symbol ops operand pos [] pos
  | dangling {pos : Nat} {o : ω} (h : operatorAt symbol ts pos ops = some o)
    (hv : Replies rules ts depth operand (pos + 1) none) :
    Greedy rules ts depth symbol ops operand pos [] pos
  | step {pos next stop : Nat} {o : ω} {a : α} {later : List (ω × α)}
    (h : operatorAt symbol ts pos ops = some o)
    (hv : Replies rules ts depth operand (pos + 1) (some (next, a)))
    (hlater : Greedy rules ts depth symbol ops operand next later stop) :
    Greedy rules ts depth symbol ops operand pos ((o, a) :: later) stop

/-- The tree of an operand and what follows it. Its root is the rightmost of the loosest
operators. -/
inductive Grouped (looseness : ω → Nat) (join : ω → α → α → α) : α → List (ω × α) → α → Prop where
  | single (a : α) : Grouped looseness join a [] a
  | split {a b left right : α} {o : ω} {front back : List (ω × α)}
    (hfront : ∀ e ∈ front, looseness e.1 ≤ looseness o)
    (hback : ∀ e ∈ back, looseness e.1 < looseness o)
    (hleft : Grouped looseness join a front left) (hright : Grouped looseness join b back right) :
    Grouped looseness join a (front ++ (o, b) :: back) (join o left right)

/-- The number of levels that are tighter than an operator; of several levels that have its symbol
the tightest counts. -/
def looseness (symbol : ω → String) (levels : List (List ω)) (o : ω) : Nat :=
  levels.findIdx fun level => level.any fun q => symbol q == symbol o

inductive Flat (rules : Rules τ) (ts : Array Token) (depth : Nat) (symbol : ω → String)
    (join : ω → α → α → α) (looseness : ω → Nat) (ops : List ω) (operand : Parser τ α) (pos : Nat) :
    Reply α → Prop where
  | refused (h : Replies rules ts depth operand pos none) :
    Flat rules ts depth symbol join looseness ops operand pos none
  | found {next stop : Nat} {a tree : α} {later : List (ω × α)}
    (h : Replies rules ts depth operand pos (some (next, a)))
    (hlater : Greedy rules ts depth symbol ops operand next later stop)
    (htree : Grouped looseness join a later tree) :
    Flat rules ts depth symbol join looseness ops operand pos (some (stop, tree))

section

variable {loose : ω → Nat} {join : ω → α → α → α}

theorem exists_loosest (loose : ω → Nat) {later : List (ω × α)} (hne : later ≠ []) :
    ∃ front o b back, later = front ++ (o, b) :: back ∧ (∀ e ∈ front, loose e.1 ≤ loose o) ∧
      ∀ e ∈ back, loose e.1 < loose o := by
  induction later with
  | nil => exact absurd rfl hne
  | cons e later ih =>
    obtain ⟨q, c⟩ := e
    by_cases hl : later = []
    · exact ⟨[], q, c, [], by simp [hl], by simp, by simp⟩
    · obtain ⟨front, o, b, back, rfl, hfront, hback⟩ := ih hl
      by_cases hq : loose q ≤ loose o
      · exact ⟨(q, c) :: front, o, b, back, rfl, by simpa [hq] using hfront, hback⟩
      · -- The first operator is looser than all the others.
        refine ⟨[], q, c, front ++ (o, b) :: back, rfl, by simp, fun e he => ?_⟩
        have hle : loose e.1 ≤ loose o := by
          obtain he | he := List.mem_append.1 he
          · exact hfront e he
          · obtain rfl | he := List.mem_cons.1 he
            · exact Nat.le_refl _
            · exact Nat.le_of_lt (hback e he)
        omega

theorem exists_grouped (loose : ω → Nat) (join : ω → α → α → α) (a : α) (later : List (ω × α)) :
    ∃ tree, Grouped loose join a later tree := by
  induction hn : later.length using Nat.strongRecOn generalizing a later with
  | ind n ih =>
    by_cases hl : later = []
    · exact ⟨a, hl ▸ .single a⟩
    · obtain ⟨front, o, b, back, rfl, hfront, hback⟩ := exists_loosest loose hl
      rw [List.length_append, List.length_cons] at hn
      obtain ⟨left, hleft⟩ := ih front.length (by omega) a front rfl
      obtain ⟨right, hright⟩ := ih back.length (by omega) b back rfl
      exact ⟨_, .split hfront hback hleft hright⟩

/-- Neither of two splits of a chain at a rightmost loosest operator is to the left of the other. -/
theorem not_split_behind {front between back : List (ω × α)} {o q : ω} {b c : α}
    (hq : ∀ e ∈ front ++ (o, b) :: between, loose e.1 ≤ loose q)
    (ho : ∀ e ∈ between ++ (q, c) :: back, loose e.1 < loose o) : False := by
  have h := hq (o, b) (by simp)
  have h' := ho (q, c) (by simp)
  exact absurd h (Nat.not_le_of_lt h')

theorem Grouped.unique {a tree tree' : α} {later : List (ω × α)}
    (h : Grouped loose join a later tree) (h' : Grouped loose join a later tree') :
    tree = tree' := by
  induction h generalizing tree' with
  | single a =>
    generalize hl : ([] : List (ω × α)) = later at h'
    cases h' with
    | single => rfl
    | split => simp at hl
  | @split a b left right o front back hfront hback _ _ ihl ihr =>
    generalize hl : front ++ (o, b) :: back = later at h'
    cases h' with
    | single => simp at hl
    | @split _ c left' right' q front' back' hfront' hback' hleft' hright' =>
      obtain ⟨between, rfl, hb⟩ | ⟨between, rfl, hb⟩ := List.append_eq_append_iff.1 hl
      · cases between with
        | nil =>
          cases hb
          rw [List.append_nil] at hleft'
          rw [ihl hleft', ihr hright']
        | cons e between =>
          cases hb
          exact (not_split_behind hfront' hback).elim
      · cases between with
        | nil =>
          cases hb
          rw [List.append_nil] at ihl
          rw [ihl hleft', ihr hright']
        | cons e between =>
          cases hb
          exact (not_split_behind hfront hback').elim

end

namespace Greedy

variable {more : List ω} {operand : Parser τ α} {later block : List (ω × α)}

theorem le (h : Greedy rules ts depth symbol ops operand pos later stop) : pos ≤ stop := by
  induction h with
  | done | dangling => exact Nat.le_refl _
  | step _ hv _ ih =>
    have := hv.stop_bounds
    omega

theorem unique {later' : List (ω × α)} {stop' : Nat}
    (h : Greedy rules ts depth symbol ops operand pos later stop)
    (h' : Greedy rules ts depth symbol ops operand pos later' stop') :
    later = later' ∧ stop = stop' := by
  induction h generalizing later' stop' with
  | done h =>
    cases h' with
    | done | dangling => exact ⟨rfl, rfl⟩
    | step h' => rw [h] at h'; cases h'
  | dangling h hv =>
    cases h' with
    | done | dangling => exact ⟨rfl, rfl⟩
    | step _ hv' => cases hv.unique hv'
  | step h hv _ ih =>
    cases h' with
    | done h' => rw [h] at h'; cases h'
    | dangling _ hv' => cases hv.unique hv'
    | step h' hv' hlater' =>
      cases h.symm.trans h'
      cases hv.unique hv'
      obtain ⟨rfl, rfl⟩ := ih hlater'
      exact ⟨rfl, rfl⟩

theorem ended (h : Greedy rules ts depth symbol ops operand pos later stop) :
    Greedy rules ts depth symbol ops operand stop [] stop := by
  induction h with
  | done h => exact .done h
  | dangling h hv => exact .dangling h hv
  | step _ _ _ ih => exact ih

theorem exists_of_mem (h : Greedy rules ts depth symbol ops operand pos later stop) :
    ∀ e ∈ later, ∃ mid, operatorAt symbol ts mid ops = some e.1 := by
  induction h with
  | done | dangling => simp
  | step h _ _ ih => exact List.forall_mem_cons.2 ⟨⟨_, h⟩, ih⟩

theorem append (h : Greedy rules ts depth symbol ops operand pos block mid)
    (hmore : Greedy rules ts depth symbol (ops ++ more) operand mid later stop) :
    Greedy rules ts depth symbol (ops ++ more) operand pos (block ++ later) stop := by
  induction h with
  | done | dangling => exact hmore
  | step h hv _ ih => exact .step (by rw [operatorAt_append, h, Option.some_or]) hv (ih hmore)

theorem exists_block (h : Greedy rules ts depth symbol (ops ++ more) operand pos later stop) :
    ∃ block mid rest, later = block ++ rest ∧
      Greedy rules ts depth symbol ops operand pos block mid ∧
      Greedy rules ts depth symbol (ops ++ more) operand mid rest stop := by
  induction h with
  | @done pos h =>
    rw [operatorAt_append, Option.or_eq_none_iff] at h
    exact ⟨[], pos, [], rfl, .done h.1, .done (by rw [operatorAt_append, h.1, h.2, Option.none_or])⟩
  | @dangling pos o h hv =>
    refine ⟨[], pos, [], rfl, ?_, .dangling h hv⟩
    cases ho : operatorAt symbol ts pos ops with
    | none => exact .done ho
    | some q => exact .dangling ho hv
  | @step pos next stop o a later h hv hlater ih =>
    cases ho : operatorAt symbol ts pos ops with
    | none => exact ⟨[], pos, (o, a) :: later, rfl, .done ho, .step h hv hlater⟩
    | some q =>
      obtain rfl : q = o := by
        rw [operatorAt_append, ho, Option.some_or] at h
        exact Option.some.inj h
      obtain ⟨block, mid, rest, rfl, hblock, hrest⟩ := ih
      exact ⟨(q, a) :: block, mid, rest, rfl, .step ho hv hblock, hrest⟩

end Greedy

theorem Flat.unique {join : ω → α → α → α} {loose : ω → Nat} {operand : Parser τ α}
    {r r' : Reply α} (h : Flat rules ts depth symbol join loose ops operand pos r)
    (h' : Flat rules ts depth symbol join loose ops operand pos r') : r = r' := by
  cases h with
  | refused h =>
    cases h' with
    | refused => rfl
    | found h' => cases h.unique h'
  | found h hlater htree =>
    cases h' with
    | refused h' => cases h.unique h'
    | found h' hlater' htree' =>
      cases h.unique h'
      obtain ⟨rfl, rfl⟩ := hlater.unique hlater'
      rw [htree.unique htree']

theorem looseness_lt {done rest : List (List ω)} {o : ω}
    (h : operatorAt symbol ts pos done.flatten = some o) :
    looseness symbol (done ++ rest) o < done.length := by
  obtain ⟨level, hlevel, ho⟩ := List.mem_flatten.1 (List.mem_of_find?_eq_some h)
  have hany : (level.any fun q => symbol q == symbol o) = true :=
    List.any_eq_true.2 ⟨o, ho, beq_self_eq_true _⟩
  have hlt : (done.findIdx fun level => level.any fun q => symbol q == symbol o) < done.length :=
    List.findIdx_lt_length_of_exists ⟨level, hlevel, hany⟩
  rw [looseness, List.findIdx_append, if_pos hlt]
  exact hlt

theorem Greedy.looseness_lt {operand : Parser τ α} {later : List (ω × α)} {done : List (List ω)}
    (h : Greedy rules ts depth symbol done.flatten operand pos later stop) (rest : List (List ω)) :
    ∀ e ∈ later, looseness symbol (done ++ rest) e.1 < done.length := by
  intro e he
  obtain ⟨_, hmem⟩ := h.exists_of_mem e he
  exact Parser.looseness_lt hmem

theorem looseness_eq {done rest : List (List ω)} {level : List ω} {o : ω}
    (hdone : operatorAt symbol ts pos done.flatten = none)
    (ho : operatorAt symbol ts pos level = some o) :
    looseness symbol (done ++ level :: rest) o = done.length := by
  have hsymbol := getElem?_of_operatorAt ho
  have hearlier : ∀ l ∈ done, ¬ (l.any fun q => symbol q == symbol o) = true := by
    intro l hl hany
    obtain ⟨q, hq, hqo⟩ := List.any_eq_true.1 hany
    refine List.find?_eq_none.1 hdone q (List.mem_flatten.2 ⟨l, hl, hq⟩) (decide_eq_true ?_)
    rw [hsymbol, eq_of_beq hqo]
  have hlevel : (level.any fun q => symbol q == symbol o) = true :=
    List.any_eq_true.2 ⟨o, List.mem_of_find?_eq_some ho, beq_self_eq_true _⟩
  have hlen := List.findIdx_eq_length_of_false fun l hl => Bool.eq_false_iff.2 (hearlier l hl)
  rw [looseness, List.findIdx_append, hlen, if_neg (Nat.lt_irrefl _), List.findIdx_cons, hlevel]
  simp

section

variable {join : ω → α → α → α} {operand p : Parser τ α} {done rest : List (List ω)} {o : ω}
  {os : List ω}

theorem Joins.greedy {loose : ω → Nat} (hloose : loose = looseness symbol (done ++ (o :: os) :: rest))
    (hp : ∀ pos r, Replies rules ts depth p pos r ↔
      Flat rules ts depth symbol join loose done.flatten operand pos r)
    {n : Nat} {a left : α} {front : List (ω × α)} {found : Nat × α}
    (h : Joins rules ts depth p (.map join (oneOf symbol o os)) n pos left found)
    (hend : Greedy rules ts depth symbol done.flatten operand pos [] pos)
    (hfront : ∀ e ∈ front, loose e.1 ≤ done.length) (hleft : Grouped loose join a front left) :
    ∃ later,
      Greedy rules ts depth symbol (done.flatten ++ o :: os) operand pos later found.1 ∧
        Grouped loose join a (front ++ later) found.2 := by
  induction h generalizing front with
  | @done n pos left hs =>
    have hlevel : operatorAt symbol ts pos (o :: os) = none :=
      Option.map_eq_none_iff.1 (replies_oneOf.1 hs).symm
    refine ⟨[], ?_, by rwa [List.append_nil]⟩
    cases hend with
    | done h => exact .done (by rw [operatorAt_append, h, hlevel]; rfl)
    | dangling h hv => exact .dangling (by rw [operatorAt_append, h, Option.some_or]) hv
  | @dangling n pos after left _ hs hdangling =>
    obtain ⟨q, hq, hafter⟩ := Option.map_eq_some_iff.1 (replies_oneOf.1 hs).symm
    cases hafter
    have hv : Replies rules ts depth operand (pos + 1) none := by
      cases (hp _ _).1 hdangling with
      | refused hv => exact hv
    refine ⟨[], ?_, by rwa [List.append_nil]⟩
    cases hend with
    | done h => exact .dangling (by rw [operatorAt_append, h, hq]; rfl) hv
    | dangling h hv => exact .dangling (by rw [operatorAt_append, h, Option.some_or]) hv
  | @step n pos after next left right _ found hs hright _ ih =>
    obtain ⟨q, hq, hafter⟩ := Option.map_eq_some_iff.1 (replies_oneOf.1 hs).symm
    cases hafter
    cases (hp _ _).1 hright with
    | @found mid _ b _ block hv hblock hright =>
      cases hend with
      | dangling _ hv' => cases hv.unique hv'
      | done h =>
        have hlevel : loose q = done.length := hloose ▸ looseness_eq h hq
        have hback : ∀ e ∈ block, loose e.1 < loose q := by
          rw [hlevel, hloose]
          exact hblock.looseness_lt _
        have hfront' : ∀ e ∈ front ++ (q, b) :: block, loose e.1 ≤ done.length := by
          intro e he
          obtain he | he := List.mem_append.1 he
          · exact hfront e he
          · obtain rfl | he := List.mem_cons.1 he
            · exact Nat.le_of_eq hlevel
            · exact hlevel ▸ Nat.le_of_lt (hback e he)
        have hjoined := Grouped.split (hlevel ▸ hfront) hback hleft hright
        obtain ⟨later, hlater, htree⟩ := ih hblock.ended hfront' hjoined
        refine ⟨(q, b) :: (block ++ later), ?_, ?_⟩
        · exact .step (by rw [operatorAt_append, h, hq]; rfl) hv (hblock.append hlater)
        · rwa [List.append_assoc] at htree

theorem Greedy.joins {loose : ω → Nat}
    (hp : ∀ pos r, Replies rules ts depth p pos r ↔
      Flat rules ts depth symbol join loose ops operand pos r)
    {n : Nat} {later : List (ω × α)} (left : α)
    (h : Greedy rules ts depth symbol (ops ++ o :: os) operand pos later stop)
    (hend : Greedy rules ts depth symbol ops operand pos [] pos) (hn : ts.size - pos < n) :
    ∃ found, Joins rules ts depth p (.map join (oneOf symbol o os)) n pos left found := by
  induction n generalizing pos later left with
  | zero => omega
  | succ n ih =>
    cases hq : operatorAt symbol ts pos (o :: os) with
    | none => exact ⟨_, .done (replies_oneOf.2 (by rw [hq]; rfl))⟩
    | some q =>
      have hs : Replies rules ts depth (.map join (oneOf symbol o os)) pos
          (some (pos + 1, join q)) := replies_oneOf.2 (by rw [hq]; rfl)
      cases h with
      | done h =>
        rw [operatorAt_append, hq, Option.or_some] at h
        cases h
      | dangling _ hv => exact ⟨_, .dangling hs ((hp _ _).2 (.refused hv))⟩
      | @step _ next _ _ b later _ hv hlater =>
        obtain ⟨block, mid, rest, rfl, hblock, hrest⟩ := hlater.exists_block
        obtain ⟨right, hright⟩ := exists_grouped loose join b block
        have hpos := lt_size_of_operatorAt hq
        have hnext := hv.stop_bounds
        have hmid := hblock.le
        obtain ⟨found, hfound⟩ := ih (join q left right) hrest hblock.ended (by omega)
        exact ⟨found, .step hs ((hp _ _).2 (.found hv hblock hright)) hfound⟩

theorem replies_level {loose : ω → Nat}
    (hloose : loose = looseness symbol (done ++ (o :: os) :: rest))
    (hp : ∀ pos r, Replies rules ts depth p pos r ↔
      Flat rules ts depth symbol join loose done.flatten operand pos r) {r : Reply α} :
    Replies rules ts depth (.sepBy p (.map join (oneOf symbol o os))) pos r ↔
      Flat rules ts depth symbol join loose (done.flatten ++ o :: os) operand pos r := by
  have hflat : ∀ r, Replies rules ts depth (.sepBy p (.map join (oneOf symbol o os))) pos r →
      Flat rules ts depth symbol join loose (done.flatten ++ o :: os) operand pos r := by
    intro r h
    obtain ⟨hfirst, rfl⟩ | ⟨mid, left, ⟨stop, tree⟩, hfirst, hjoins, rfl⟩ := replies_sepBy.1 h
    · cases (hp _ _).1 hfirst with
      | refused hv => exact .refused hv
    · cases (hp _ _).1 hfirst with
      | found hv hblock hleft =>
        have hfront := fun e he => Nat.le_of_lt (hblock.looseness_lt ((o :: os) :: rest) e he)
        rw [← hloose] at hfront
        obtain ⟨later, hlater, htree⟩ := hjoins.greedy hloose hp hblock.ended hfront hleft
        exact .found hv (hblock.append hlater) htree
  refine ⟨hflat r, fun h => ?_⟩
  cases h with
  | refused hv => exact replies_sepBy.2 (.inl ⟨(hp _ _).2 (.refused hv), rfl⟩)
  | @found next stop a tree later hv hlater htree =>
    obtain ⟨block, mid, more, rfl, hblock, hmore⟩ := hlater.exists_block
    obtain ⟨left, hleft⟩ := exists_grouped loose join a block
    obtain ⟨found, hfound⟩ := hmore.joins hp left hblock.ended (Nat.lt_succ_self _)
    have hrun := replies_sepBy.2 (.inr ⟨mid, left, found, (hp _ _).2 (.found hv hblock hleft),
      hfound, rfl⟩)
    -- The run ends, and the flat chain gives one thing only.
    rw [(Flat.found hv (hblock.append hmore) htree).unique (hflat _ hrun)]
    exact hrun

end

theorem replies_levels {join : ω → α → α → α} {operand p : Parser τ α} {loose : ω → Nat}
    (done levels : List (List ω)) (hloose : loose = looseness symbol (done ++ levels))
    (hp : ∀ pos r, Replies rules ts depth p pos r ↔
      Flat rules ts depth symbol join loose done.flatten operand pos r) (pos : Nat) (r : Reply α) :
    Replies rules ts depth (precedence symbol join p levels) pos r ↔
      Flat rules ts depth symbol join loose (done ++ levels).flatten operand pos r := by
  induction levels generalizing done p with
  | nil => simpa [precedence] using hp pos r
  | cons level levels ih =>
    have hnext : done ++ level :: levels = done ++ [level] ++ levels := by simp
    rw [hnext] at hloose ⊢
    cases level with
    | nil => exact ih (done ++ [[]]) hloose (by simpa using hp)
    | cons o os =>
      refine ih (done ++ [o :: os]) hloose fun pos r => ?_
      have hlevels : (done ++ [o :: os]).flatten = done.flatten ++ o :: os := by simp
      rw [hlevels]
      exact replies_level (by rw [hloose, hnext]) hp

theorem flat_nil {join : ω → α → α → α} {operand : Parser τ α} {loose : ω → Nat} {r : Reply α} :
    Flat rules ts depth symbol join loose [] operand pos r ↔
      Replies rules ts depth operand pos r := by
  constructor
  · intro h
    cases h with
    | refused hv => exact hv
    | found hv hlater htree =>
      cases hlater with
      | done | dangling =>
        rw [htree.unique (.single _)]
        exact hv
      | step h => cases h
  · intro h
    match r with
    | none => exact .refused h
    | some (stop, a) => exact .found h (.done rfl) (.single a)

theorem exists_greedy {operand : Parser τ α} (symbol : ω → String) (ops : List ω)
    (hv : ∀ q, ∃ s, Replies rules ts depth operand q s) (pos : Nat) :
    ∃ later stop, Greedy rules ts depth symbol ops operand pos later stop := by
  induction hn : ts.size - pos using Nat.strongRecOn generalizing pos with
  | ind n ih =>
    cases ho : operatorAt symbol ts pos ops with
    | none => exact ⟨[], pos, .done ho⟩
    | some o =>
      obtain ⟨_ | ⟨next, a⟩, h⟩ := hv (pos + 1)
      · exact ⟨[], pos, .dangling ho h⟩
      · have hpos := lt_size_of_operatorAt ho
        have hnext := h.stop_bounds
        obtain ⟨later, stop, hlater⟩ := ih (ts.size - next) (by omega) next rfl
        exact ⟨(o, a) :: later, stop, .step ho h hlater⟩

/-- The operators of all levels, from the tightest to the loosest, give what one flat chain gives:
nothing where no operand stands, and else the end of the chain, with the tree that is split at the
rightmost of the loosest operators. There is an answer if the operand always has one. -/
theorem replies_precedence (rules : Rules τ) (ts : Array Token) (depth : Nat) (symbol : ω → String)
    (join : ω → α → α → α) (operand : Parser τ α) (levels : List (List ω)) (pos : Nat) :
    (∀ r, Replies rules ts depth (precedence symbol join operand levels) pos r ↔
      Flat rules ts depth symbol join (looseness symbol levels) levels.flatten operand pos r) ∧
    ((∀ q, ∃ s, Replies rules ts depth operand q s) →
      ∃ r, Replies rules ts depth (precedence symbol join operand levels) pos r) := by
  have hflat : ∀ r, Replies rules ts depth (precedence symbol join operand levels) pos r ↔
      Flat rules ts depth symbol join (looseness symbol levels) levels.flatten operand pos r :=
    replies_levels [] levels rfl (fun _ _ => flat_nil.symm) pos
  refine ⟨hflat, fun hv => ?_⟩
  obtain ⟨_ | ⟨next, a⟩, h⟩ := hv pos
  · exact ⟨none, (hflat none).2 (.refused h)⟩
  · obtain ⟨later, stop, hlater⟩ := exists_greedy symbol levels.flatten hv next
    obtain ⟨tree, htree⟩ := exists_grouped (looseness symbol levels) join a later
    exact ⟨some (stop, tree), (hflat _).2 (.found h hlater htree)⟩

end ImpLang.Parser
