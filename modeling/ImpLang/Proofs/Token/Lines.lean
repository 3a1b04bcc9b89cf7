import ImpLang.Proofs.Token.Spacing
import ImpLang.Proofs.Token.Stuck

namespace ImpLang

namespace Position

theorem ofRest_append (width : Char → Nat) (text rest : List Char) :
    ofRest width (text ++ rest) rest = after width text := by
  rw [ofRest, List.length_append, Nat.add_sub_cancel, List.take_left]

/-- A line feed in between moves a place down and leaves its column. -/
theorem after_append_line (text rest : List Char) :
    after (fun _ => 1) (text ++ '\n' :: rest) =
      ⟨(after (fun _ => 1) rest).line + text.count '\n' + 1,
        (after (fun _ => 1) rest).column⟩ := by
  induction rest using List.reverseRecOn with
  | nil =>
    rw [after_append_singleton, after_eq, advance, if_pos rfl, after_nil, start]
    simp only [mk.injEq, and_true]
    omega
  | append_singleton rest c ih =>
    rw [← List.cons_append, ← List.append_assoc, after_append_singleton, ih,
      after_append_singleton]
    by_cases hc : c = '\n'
    · simp only [advance, if_pos hc, mk.injEq, and_true]
      omega
    · simp only [advance, if_neg hc]

end Position

namespace Lexer

variable {t : Token} {c : Char} {cs rest more stuck : List Char} {ts : List Token}

/-- What nothing begins with stays illegal if the text goes on with another line, unless a carriage
return at its end becomes the end of a line. -/
theorem Illegal.append_line (h : Illegal c rest) (hend : (c :: rest).getLast? ≠ some '\r') :
    Illegal c (rest ++ '\n' :: more) := by
  obtain ⟨hc, hhead⟩ | ⟨hc, line, tail, rfl, hline, hhead⟩ | hc := h
  · refine .inl ⟨hc, ?_⟩
    cases rest with
    | nil => simp
    | cons d rest => exact hhead
  · refine .inr (.inl ⟨hc, line, tail ++ '\n' :: more, by simp, hline, ?_⟩)
    cases tail with
    | nil => exact absurd (List.getLast?_concat (l := c :: line)) hend
    | cons d tail => exact hhead
  · exact .inr (.inr hc)

theorem scan_append_line_token (h : Longest t (t.text.toList ++ rest)) :
    scan (t.text.toList ++ rest ++ '\n' :: more) =
      (scan (rest ++ '\n' :: more)).map (t :: ·) := by
  have hl : Longest t (t.text.toList ++ rest ++ '\n' :: more) := h.before_blank (by decide)
  rw [List.append_assoc] at hl ⊢
  have htrivia := trivia?_eq_none (List.prefix_append _ (rest ++ '\n' :: more)) h.1
  exact scan_of_token? htrivia (token?_eq_some_iff.2 ⟨rfl, hl⟩)

theorem scan_append_line (h : Munches cs ts) :
    scan (cs ++ '\n' :: more) = (scan more).map (ts ++ ·) := by
  induction h with
  | done hgap =>
    have hline : Gap _ ('\n' :: more) := hgap.append_line
    rw [hline.scan_append, scan_blank (by decide)]
    cases scan more <;> rfl
  | @token gap t rest ts hgap hlongest _ ih =>
    have hline : Gap gap (t.text.toList ++ rest ++ '\n' :: more) := hgap.append_line
    rw [List.append_assoc, hline.scan_append, scan_append_line_token hlongest, ih]
    cases scan more <;> rfl

theorem scan_append_line_of_stuck (h : scan cs = .error stuck)
    (hend : stuck.getLast? ≠ some '\r') :
    scan (cs ++ '\n' :: more) = .error (stuck ++ '\n' :: more) := by
  fun_induction scan cs with
  | case1 => cases h
  | case2 c cs hstuck =>
    cases h
    have hc := lexeme?_eq_none_iff.1 hstuck
    exact scan_of_stuck (lexeme?_eq_none_iff.2 (hc.append_line hend))
  | case3 d ds t rest hlexeme ih =>
    have hrest := ih (eq_error_of_map_eq_error h)
    obtain ⟨rfl, gap, hcs, hgap⟩ | ⟨t, rfl, hcs, hlongest⟩ := lexeme?_cases hlexeme
    · have hline : Gap gap (rest ++ '\n' :: more) := hgap.append_line
      rw [hcs, List.append_assoc, hline.scan_append, hrest]
    · rw [hcs] at hlongest ⊢
      rw [scan_append_line_token hlongest, hrest]
      rfl

end Lexer

theorem tokenize_eq_error_iff {source : String} {e : LexError} :
    tokenize source = .error e ↔
      ∃ u c v, source.toList = u ++ c :: v ∧ Lexer.scan source.toList = .error (c :: v) ∧
        e = ⟨c, Position.after (fun _ => 1) u⟩ := by
  constructor
  · intro h
    rw [tokenize] at h
    cases hs : Lexer.scan source.toList with
    | ok ts =>
      rw [hs] at h
      cases h
    | error stuck =>
      rw [hs] at h
      obtain ⟨u, c, v, -, hsource, rfl, -⟩ := Lexer.exists_stuck hs
      refine ⟨u, c, v, hsource, rfl, ?_⟩
      cases h
      rw [LexError.ofRest, hsource, Position.ofRest_append, List.headD_cons]
  · rintro ⟨u, c, v, hsource, hs, rfl⟩
    rw [tokenize, hs, Except.mapError, LexError.ofRest, hsource, Position.ofRest_append,
      List.headD_cons]

/-- A text in front of a line feed is split into tokens as if it stood alone, and so is the text
behind, whose errors are found so many lines further down. -/
theorem tokenize_append_line (a b : String) :
    (∀ ts, tokenize a = .ok ts →
      (∀ us, tokenize b = .ok us → tokenize (a ++ "\n" ++ b) = .ok (ts ++ us)) ∧
      ∀ e, tokenize b = .error e → tokenize (a ++ "\n" ++ b) =
        .error ⟨e.character, e.position.line + a.toList.count '\n' + 1, e.position.column⟩) ∧
    ∀ e, tokenize a = .error e → a.toList.getLast? ≠ some '\r' →
      tokenize (a ++ "\n" ++ b) = .error e := by
  have htext : (a ++ "\n" ++ b).toList = a.toList ++ '\n' :: b.toList := by simp
  refine ⟨fun ts ha => ⟨fun us hb => ?_, fun e hb => ?_⟩, fun e ha hend => ?_⟩
  · rw [tokenize_eq_ok] at ha hb ⊢
    rw [htext]
    exact ha.append_line hb
  · rw [tokenize_eq_ok] at ha
    obtain ⟨u, c, v, hsource, hs, rfl⟩ := tokenize_eq_error_iff.1 hb
    refine tokenize_eq_error_iff.2 ⟨a.toList ++ '\n' :: u, c, v, ?_, ?_, ?_⟩
    · rw [htext, hsource, List.append_assoc, List.cons_append]
    · rw [htext, Lexer.scan_append_line ha, hs]
      rfl
    · rw [Position.after_append_line]
  · obtain ⟨u, c, v, hsource, hs, rfl⟩ := tokenize_eq_error_iff.1 ha
    rw [hsource, List.getLast?_append_cons] at hend
    refine tokenize_eq_error_iff.2 ⟨u, c, v ++ '\n' :: b.toList, ?_, ?_, rfl⟩
    · rw [htext, hsource, List.append_assoc, List.cons_append]
    · rw [htext, Lexer.scan_append_line_of_stuck hs hend, List.cons_append]

/-- An open comment ends with its line, and an illegal character is found on the second line or on
the first one. -/
theorem tokenize_append_line_open_comment :
    tokenize "x # y" = .ok [.id "x"] ∧ tokenize "z ?" = .error ⟨'?', ⟨1, 3⟩⟩ ∧
    tokenize ("x # y" ++ "\n" ++ "z ?") = .error ⟨'?', ⟨2, 3⟩⟩ ∧
    tokenize ("z ?" ++ "\n" ++ "x # y") = .error ⟨'?', ⟨1, 3⟩⟩ := by
  have hx : tokenize "x # y" = .ok [.id "x"] := by decide +kernel
  have hz : tokenize "z ?" = .error ⟨'?', ⟨1, 3⟩⟩ := by decide +kernel
  have hxz := ((tokenize_append_line "x # y" "z ?").1 _ hx).2 _ hz
  have hzx := (tokenize_append_line "z ?" "x # y").2 _ hz (by decide)
  exact ⟨hx, hz, hxz, hzx⟩

-- A carriage return that the line feed completes makes a comment of what was none.
example : tokenize "# x\r" = .error ⟨'#', ⟨1, 1⟩⟩ ∧
    tokenize ("# x\r" ++ "\n" ++ "y") = .ok [.id "y"] := by decide +kernel

end ImpLang
