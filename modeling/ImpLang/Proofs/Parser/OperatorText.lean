import ImpLang.Parser.Precedence
import ImpLang.Proofs.Parser.Matches

namespace ImpLang

namespace Parser

variable {ι : Type} {τ : ι → Type} {α β γ ω : Type} {rules : Rules τ} {ts : Array Token}

def anyReserved : List String → Option (Parser τ String)
  | [] => none
  | text :: texts => some (choice (reserved text) (texts.map reserved))

/-- The parser reads one of the texts, and its value is what the table has for the text. The table
has a value for every text that can be read. -/
def LooksUp (rules : Rules τ) (ts : Array Token) (table : String → Option α) (texts : List String)
    (p : Parser τ α) : Prop :=
  ∃ q, anyReserved texts = some q ∧
    (∀ depth pos stop text, Replies rules ts depth q pos (some (stop, text)) →
      (table text).isSome) ∧
    ∀ depth pos, run rules ts depth (.map table q) pos = run rules ts depth (.map some p) pos

def SameBy (rules : Rules τ) (ts : Array Token) (f : α → γ) (g : β → γ) (p : Parser τ α)
    (q : Parser τ β) : Prop :=
  ∀ depth pos, run rules ts depth (.map f p) pos = run rules ts depth (.map g q) pos

theorem run_map_map (f : α → β) (g : β → γ) (p : Parser τ α) (depth pos : Nat) :
    run rules ts depth (.map g (.map f p)) pos = run rules ts depth (.map (g ∘ f) p) pos := by
  rw [run, run, runWith, runWith, runWith, bind_assoc]
  refine bind_congr fun r => ?_
  rw [pure_bind, Option.map_map]
  rfl

theorem run_map_alt (f : α → β) (p q : Parser τ α) (depth pos : Nat) :
    run rules ts depth (.map f (.alt p q)) pos =
      run rules ts depth (.alt (.map f p) (.map f q)) pos := by
  rw [run, run, runWith, runWith, runWith, runWith, bind_assoc, bind_assoc]
  refine bind_congr fun r => ?_
  obtain _ | found := r
  · rw [pure_bind]
    rfl
  · rw [pure_bind, pure_bind]
    rfl

theorem SameBy.alt {f : α → γ} {g : β → γ} {p q : Parser τ α} {p' q' : Parser τ β}
    (hp : SameBy rules ts f g p p') (hq : SameBy rules ts f g q q') :
    SameBy rules ts f g (.alt p q) (.alt p' q') := by
  intro depth pos
  have hp := hp depth pos
  have hq := hq depth pos
  rw [run, run] at hp hq
  rw [run_map_alt, run_map_alt, run, run, runWith, runWith, hp, hq]

theorem SameBy.choice {f : α → γ} {g : β → γ} {p : Parser τ α} {p' : Parser τ β}
    {l : List ω} {q : ω → Parser τ α} {q' : ω → Parser τ β} (hp : SameBy rules ts f g p p')
    (hl : ∀ o ∈ l, SameBy rules ts f g (q o) (q' o)) :
    SameBy rules ts f g (choice p (l.map q)) (choice p' (l.map q')) := by
  induction l generalizing p p' with
  | nil => exact hp
  | cons o l ih =>
    have hfirst := hp.alt (hl o List.mem_cons_self)
    exact ih hfirst fun o' ho' => hl o' (List.mem_cons_of_mem o ho')

theorem sameBy_reserved {table : String → Option α} {text : String} {v : α}
    (h : table text = some v) :
    SameBy rules ts table (fun _ => some v) (reserved text) (reserved text) := by
  intro depth pos
  rw [run, run, runWith, runWith, reserved, runWith, pure_bind, pure_bind]
  congr 1
  cases hr : tokenAt ts pos (· == ⟨text, .reserved⟩) with
  | none => rfl
  | some found =>
    obtain ⟨stop, text'⟩ := found
    obtain ⟨t, -, ht, rfl⟩ := tokenAt_eq_some_iff.1 hr
    obtain rfl := eq_of_beq ht
    exact congrArg (fun v => some (stop, v)) h

theorem sameBy_symbolFor {table : String → Option α} {symbol : ω → String} {f : ω → α} {o : ω}
    (h : table (symbol o) = some (f o)) :
    SameBy rules ts table (some ∘ f) (reserved (symbol o)) (symbolFor symbol o) := by
  intro depth pos
  rw [symbolFor, run_map_map]
  exact sameBy_reserved h depth pos

theorem looksUp_of_sameBy {table : String → Option α} {texts : List String} {q : Parser τ String}
    {p : Parser τ α} (hq : anyReserved texts = some q) (h : SameBy rules ts table some q p) :
    LooksUp rules ts table texts p := by
  refine ⟨q, hq, fun depth pos stop text hr => ?_, h⟩
  have hmap : Replies rules ts depth (.map table q) pos (some (stop, table text)) :=
    replies_map.2 ⟨_, hr, rfl⟩
  rw [Replies, h depth pos] at hmap
  obtain ⟨_ | ⟨stop', v⟩, -, heq⟩ := replies_map.1 hmap
  · cases heq
  · have hv : table text = some v := congrArg Prod.snd (Option.some.inj heq)
    rw [hv, Option.isSome_some]

theorem looksUp_oneOf {table : String → Option α} {texts : List String} {symbol : ω → String}
    {f : ω → α} {o : ω} {os : List ω} (htexts : texts = (o :: os).map symbol)
    (h : ∀ v ∈ o :: os, table (symbol v) = some (f v)) :
    LooksUp rules ts table texts (.map f (oneOf symbol o os)) := by
  subst htexts
  have hmap : (os.map symbol).map reserved = os.map fun v => (reserved (symbol v) : Parser τ _) :=
    List.map_map
  refine looksUp_of_sameBy (congrArg some (congrArg _ hmap)) fun depth pos => ?_
  rw [run_map_map]
  refine SameBy.choice (sameBy_symbolFor (h o List.mem_cons_self)) ?_ depth pos
  intro v hv
  exact sameBy_symbolFor (h v (List.mem_cons_of_mem o hv))

theorem looksUp_reserved {table : String → Option α} {text : String} {v : α}
    (h : table text = some v) :
    LooksUp rules ts table [text] (.map (fun _ => v) (reserved text)) := by
  refine looksUp_of_sameBy rfl fun depth pos => ?_
  rw [run_map_map]
  exact sameBy_reserved h depth pos

end Parser

end ImpLang
