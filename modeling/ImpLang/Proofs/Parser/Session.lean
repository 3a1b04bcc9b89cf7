import Mathlib.Order.Monotone.Basic
import ImpLang.Proofs.Parser.Caching
import ImpLang.Proofs.Parser.Records
import ImpLang.Proofs.Parser.Termination

namespace ImpLang

/-- The answer to a call of a built parser: its reply, the calls made for it, and what it built. -/
structure Answer (κ α : Type) where
  reply : Reply α
  calls : List Call
  built : κ

/-- Calls at the positions, one after another, each in the state that the one before it left. -/
def session {σ : Type u} {ρ : Type} (call : σ → Nat → Option (ρ × σ)) :
    σ → List Nat → Option (List ρ)
  | _, [] => some []
  | s, pos :: starts =>
    match call s pos with
    | none => none
    | some (answer, s) => (session call s starts).map (answer :: ·)

variable {ι : Type} {τ : ι → Type} {α : Type}

def Built.answer (rules : Rules τ) (ts : Array Token) (depth : Nat) (p : Parser τ α) (b : Built)
    (pos : Nat) : Option (Answer Nat α × Built) :=
  match run rules ts depth p b pos with
  | none => none
  | some (calls, ⟨reply, b, count⟩) => some (⟨reply, calls, count⟩, b)

namespace Cells

def answer (rules : Rules τ) (ts : Array Token) (depth : Nat) {p : Parser τ α} (c : Cells p)
    (pos : Nat) : Option (Answer (List Place) α × Cells p) :=
  match run rules ts depth c pos with
  | none => none
  | some (calls, ⟨reply, c, built⟩) => some (⟨reply, calls, built⟩, c)

variable {rules rules' : Rules τ} {used : ι → Prop} {ts : Array Token} {enough depth pos : Nat}
  {p p' : Parser τ α} {starts : List Nat} {answers : List (Answer (List Place) α)}

theorem session_recorded {c : Cells p} {b : Built} (hcb : c.Mirrors rules b)
    (h : session (answer rules ts depth) c starts = some answers) :
    session (Built.answer rules ts depth p) b starts =
      some (answers.map fun a => ⟨a.reply, a.calls, a.built.length⟩) := by
  induction starts generalizing c b answers with
  | nil =>
    cases h
    rfl
  | cons pos starts ih =>
    rw [session, answer] at h
    match hrun : run rules ts depth c pos with
    | none =>
      rw [hrun] at h
      cases h
    | some (calls, ⟨r, c', built⟩) =>
      rw [hrun] at h
      obtain ⟨others, hothers, rfl⟩ := Option.map_eq_some_iff.1 h
      obtain ⟨⟨_, b', _⟩, hb, rfl, hcb', rfl⟩ := recorded hcb ts depth pos hrun
      rw [session, Built.answer, hb]
      exact congrArg (Option.map _) (ih hcb' hothers)

def Visited (rules : Rules τ) (ts : Array Token) (enough : Nat) (c : Cells p) (pos : Nat) : Prop :=
  ∃ calls r V, Follows rules p enough (run rules ts · · pos) calls r V ∧ V ⊆ c.filled

/-- The answers to calls from these cells are those of the parser. They build nothing that is built,
nothing twice, and nothing at positions that have been visited. -/
structure Answers (rules : Rules τ) (ts : Array Token) (enough : Nat) (c : Cells p)
    (starts : List Nat) (answers : List (Answer (List Place) α)) : Prop where
  runs : List.Forall₂ (fun pos a => Parser.run rules ts enough p pos = some (a.calls, a.reply))
    starts answers
  unfilled : ∀ π ∈ answers.flatMap Answer.built, π ∉ c.filled
  once : (answers.flatMap Answer.built).Nodup
  visited : ∀ x ∈ starts.zip answers, Visited rules ts enough c x.1 → x.2.built = []
  repeated : (starts.zip answers).Pairwise fun x y => x.1 = y.1 → y.2.built = []

theorem Answers.nil (c : Cells p) : Answers rules ts enough c [] [] :=
  ⟨.nil, by simp, .nil, by simp, .nil⟩

theorem Visited.built_eq_nil {c c' : Cells p} (h : Visited rules ts enough c pos)
    (hc : c.Valid rules) {calls : List Call} {r : Reply α} {built : List Place}
    (hrun : run rules ts enough c pos = some (calls, ⟨r, c', built⟩)) : built = [] := by
  obtain ⟨calls', r', V, hV, hsub⟩ := h
  obtain ⟨c'', built', hrun', -, hg⟩ := hV c hc
  cases hrun.symm.trans (hrun' enough (Nat.le_refl enough))
  refine List.eq_nil_iff_forall_not_mem.2 fun π hπ => ?_
  obtain ⟨hπV, hπ⟩ := (hg.mem π).1 hπ
  exact hπ (hsub hπV)

theorem Answers.cons {calls : List Call} {r : Reply α} {V : Set Place} {c c' : Cells p}
    {built : List Place} (hp : Parser.run rules ts enough p pos = some (calls, r))
    (hV : Follows rules p enough (run rules ts · · pos) calls r V) (hc : c.Valid rules)
    (hrun : run rules ts enough c pos = some (calls, ⟨r, c', built⟩))
    (hg : Grows V c.filled c'.filled built) (h : Answers rules ts enough c' starts answers) :
    Answers rules ts enough c (pos :: starts) (⟨r, calls, built⟩ :: answers) := by
  have hbefore : c.filled ⊆ c'.filled := hg.after ▸ Set.subset_union_left
  have hnew : V ⊆ c'.filled := hg.after ▸ Set.subset_union_right
  have hcall : Visited rules ts enough c' pos := ⟨calls, r, V, hV, hnew⟩
  refine ⟨.cons hp h.runs, ?_, ?_, ?_, ?_⟩
  · intro π hπ hfilled
    rw [List.flatMap_cons, List.mem_append] at hπ
    obtain hπ | hπ := hπ
    · exact ((hg.mem π).1 hπ).2 hfilled
    · exact h.unfilled π hπ (hbefore hfilled)
  · rw [List.flatMap_cons]
    refine List.nodup_append'.2 ⟨hg.nodup, h.once, fun π hπ hlater => ?_⟩
    exact h.unfilled π hlater (hnew ((hg.mem π).1 hπ).1)
  · intro x hx hvisited
    rw [List.zip_cons_cons, List.mem_cons] at hx
    obtain rfl | hx := hx
    · exact hvisited.built_eq_nil hc hrun
    · obtain ⟨calls, r, W, hW, hsub⟩ := hvisited
      exact h.visited x hx ⟨calls, r, W, hW, hsub.trans hbefore⟩
  · rw [List.zip_cons_cons]
    refine .cons (fun x hx hpos => h.visited x hx ?_) h.repeated
    exact hpos ▸ hcall

theorem exists_answers {c : Cells p} (hc : c.Valid rules)
    (hruns : ∀ pos ∈ starts, ∃ result, Parser.run rules ts enough p pos = some result) :
    ∃ answers, (∀ depth, enough ≤ depth → session (answer rules ts depth) c starts = some answers) ∧
      Answers rules ts enough c starts answers := by
  induction starts generalizing c with
  | nil => exact ⟨[], fun _ _ => rfl, .nil c⟩
  | cons pos starts ih =>
    obtain ⟨⟨calls, r⟩, hp⟩ := hruns pos List.mem_cons_self
    obtain ⟨V, hV⟩ := faithful rules ts enough p hp
    obtain ⟨c', built, hrun, hc', hg⟩ := hV c hc
    obtain ⟨answers, hsession, h⟩ :=
      ih hc' fun next hnext => hruns next (List.mem_cons_of_mem _ hnext)
    have hanswers := h.cons hp hV hc (hrun enough (Nat.le_refl enough)) hg
    refine ⟨⟨r, calls, built⟩ :: answers, fun depth hd => ?_, hanswers⟩
    have hcall : run rules ts depth c pos = some (calls, ⟨r, c', built⟩) := hrun depth hd
    rw [session, answer, hcall]
    exact congrArg (Option.map _) (hsession depth hd)

theorem exists_alone {calls : List Call} {r : Reply α}
    (h : Parser.run rules ts enough p pos = some (calls, r)) (hd : enough ≤ depth) :
    ∃ built, session (answer rules ts depth) (fresh p) [pos] = some [⟨r, calls, built⟩] := by
  have hone : ∀ next ∈ [pos], ∃ result, Parser.run rules ts enough p next = some result := by
    intro next hnext
    obtain rfl := List.mem_singleton.1 hnext
    exact ⟨_, h⟩
  obtain ⟨alone, halone, ha⟩ := exists_answers (valid_fresh p) hone
  match alone, ha.runs with
  | [⟨_, _, built⟩], .cons hanswer .nil =>
    cases h.symm.trans hanswer
    exact ⟨built, halone depth hd⟩

/-- In a session the cells are seen in nothing but in what is built. -/
structure Transparent (rules rules' : Rules τ) (ts : Array Token) (p p' : Parser τ α)
    (starts : List Nat) (depth : Nat) (answers : List (Answer (List Place) α)) : Prop where
  answered : session (answer rules ts depth) (fresh p) starts = some answers
  /-- Keeping only a record of what is built gives the same, and how much each call builds. -/
  recorded : session (Built.answer rules ts depth p) .nothing starts =
    some (answers.map fun a => ⟨a.reply, a.calls, a.built.length⟩)
  alone : List.Forall₂ (fun pos a => ∃ built,
    session (answer rules ts depth) (fresh p) [pos] = some [⟨a.reply, a.calls, built⟩])
      starts answers
  unfolded : List.Forall₂ (fun pos a =>
    (∃ built, session (answer rules' ts depth) (fresh p') [pos] =
      some [⟨a.reply, a.calls, built⟩]) ∧
        Parser.run rules' ts depth p' pos = some (a.calls, a.reply)) starts answers
  once : (answers.flatMap Answer.built).Nodup
  monotone : Monotone fun n => ((answers.take n).flatMap Answer.built).length
  repeated : (starts.zip answers).Pairwise fun x y => x.1 = y.1 → y.2.built = []

theorem exists_enough (hp : Parser.WellFormed rules used p) (ts : Array Token)
    (starts : List Nat) : ∃ enough, ∀ pos ∈ starts, ∃ result,
      Parser.run rules ts enough p pos = some result := by
  induction starts with
  | nil => exact ⟨0, by simp⟩
  | cons pos starts ih =>
    obtain ⟨n, hn⟩ := ih
    obtain ⟨m, result, hm⟩ := hp.settles ts pos
    refine ⟨max m n, fun next hnext => ?_⟩
    obtain rfl | hnext := List.mem_cons.1 hnext
    · exact ⟨result, hm _ (Nat.le_max_left m n)⟩
    · obtain ⟨result, hresult⟩ := hn next hnext
      exact ⟨result, Parser.run_mono (Nat.le_max_right m n) hresult⟩

/-- The answers of one built parser to calls at any positions, one after another, are those of a
parser that is built anew for each of them, and those of any parser in which delayed parts and rules
are replaced by what they build. Nothing is built twice, and nothing at a position of an earlier
call. -/
theorem session_transparent (hp : Parser.WellFormed rules used p)
    (hrules : ∀ i, Parser.Unfolds rules (rules i) (rules' i)) (hp' : Parser.Unfolds rules p p')
    (ts : Array Token) (starts : List Nat) :
    ∃ enough answers, ∀ depth, enough ≤ depth →
      Transparent rules rules' ts p p' starts depth answers := by
  obtain ⟨enough, hruns⟩ := exists_enough hp ts starts
  obtain ⟨answers, hsession, h⟩ := exists_answers (valid_fresh p) hruns
  refine ⟨enough, answers, fun depth hd => ⟨hsession depth hd, ?_, ?_, ?_, h.once, ?_, h.repeated⟩⟩
  · exact session_recorded (mirrors_fresh p) (hsession depth hd)
  · exact h.runs.imp fun pos a hrun => exists_alone hrun hd
  · refine h.runs.imp fun pos a hrun => ?_
    obtain ⟨r, hr, rfl⟩ := hp'.extends hrules hd pos hrun
    exact ⟨exists_alone hr (Nat.le_refl depth), hr⟩
  · intro n m hnm
    obtain ⟨others, hothers⟩ := List.take_prefix_take_left (l := answers) hnm
    simp only [← hothers, List.flatMap_append, List.length_append]
    exact Nat.le_add_right ..

/-- A name in any number of parentheses, each closed by the given parser. -/
def nested (close : Parser (fun _ : Unit => String) String) : Rules fun _ : Unit => String :=
  fun i => .alt (.tagged .id)
    (.map (fun ((_, name), _) => name) (.seq (.seq (.token "(" .reserved) (.rule i)) close))

theorem session_transparent_nested :
    ∃ enough answers, ∀ depth, enough ≤ depth →
      Transparent (nested (.delay (.token ")" .reserved))) (nested (.token ")" .reserved))
        #[.reserved "(", .id "x", .reserved ")"] (nested (.delay (.token ")" .reserved)) ())
        (nested (.token ")" .reserved) ()) [0, 1, 0] depth answers :=
  have hunfolds (i : Unit) : Parser.Unfolds (nested (.delay (.token ")" .reserved)))
      (nested (.delay (.token ")" .reserved)) i) (nested (.token ")" .reserved) i) :=
    .alt (.tagged _) (.map _ (.seq (.seq (.token _ _) (.rule i)) (.built (.token _ _))))
  session_transparent
    (Parser.wellFormed_of_guarded (c := fun _ => true) ⟨fun _ _ => rfl, fun _ => rfl⟩ rfl)
    hunfolds (hunfolds ()) _ _

-- The first call builds the rule in the parentheses and what closes them, the others nothing.
example : (session (answer (nested (.delay (.token ")" .reserved)))
    #[.reserved "(", .id "x", .reserved ")"] 2)
    (fresh (nested (.delay (.token ")" .reserved)) ())) [0, 1, 0]).map (List.map Answer.built) =
      some [[[.second, .first, .second], [.second, .second]], [], []] := rfl

end Cells

end ImpLang
