import Lox.Proofs.Token.Longest

/-!
# Sources with separators

A newline separates two sources: each is scanned as if it stood alone (`scan_append_newline`),
unless the first one ends within a string. A blank separates two lexemes: the texts of the tokens of
any source, with single blanks between them, are scanned to the same tokens again (`scan_lexemes`).
-/

namespace Lox

open Lexer

/-! ## Sources on lines of their own -/

/-- A source that does not end within a string ends with its last line: what follows on the next
line is scanned as if it stood alone, further down. -/
theorem scan_append_newline {first : String}
    (h : ∀ e ∈ errors (scan first), e.fault ≠ .unterminatedString) (second : String) :
    let lines := 1 + first.toList.count '\n'
    (scan first).getLast? = some (.ok (Token.endOfFile lines)) ∧
      scan (first ++ "\n" ++ second) =
        (scan first).dropLast ++ (scan second).map (Item.down lines) := by
  intro lines
  have hfirst := scan_eq first
  rw [hfirst, List.getLast?_concat, List.dropLast_concat]
  exact ⟨rfl, scan_newline_of_closed h second⟩

/-- An operator is cut off by the end of its line. -/
theorem scan_append_newline_operator :
    (∀ e ∈ errors (scan "a # ="), e.fault ≠ .unterminatedString) ∧
      scan ("a # =" ++ "\n" ++ "= \"") = [.ok ⟨.identifier, "a", none, 1⟩,
        .error ⟨1, .unexpected '#'⟩, .ok ⟨.equal, "=", none, 1⟩, .ok ⟨.equal, "=", none, 2⟩,
        .error ⟨2, .unterminatedString⟩, .ok (Token.endOfFile 2)] := by
  have h : ∀ e ∈ errors (scan "a # ="), e.fault ≠ .unterminatedString := by decide +kernel
  refine ⟨h, (scan_append_newline h "= \"").2.trans ?_⟩
  decide +kernel

/-! ## Lexemes with blanks between them -/

namespace Lexer

/-- The segment of a single blank. -/
def gap : Segment := ⟨.blank, [' ']⟩

theorem ends_gap (cs : List Char) : Ends (' ' :: cs) := fun _ hc => Option.some.inj hc ▸ rfl

theorem segments_nil : segments [] = [] := by
  rw [segments]

theorem segments_gap (cs : List Char) : segments (' ' :: cs) = gap :: segments cs := by
  rw [segments]
  rfl

/-- A lexeme is a segment of its own where it stands before a blank or at the end. -/
theorem segments_lexeme {kind : Kind} {literal : Option Literal} {text after : List Char}
    (h : Lexeme kind literal text) (hafter : Ends after) :
    segments (text ++ after) = ⟨.lexeme kind literal, text⟩ :: segments after := by
  obtain ⟨c, cs, rfl⟩ := List.exists_cons_of_ne_nil h.ne_nil
  rw [List.cons_append, segments, h.first_eq hafter]

/-- So is a lexeme that is read from a source, wherever it stands so. -/
theorem segments_append {source after : List Char} {s : Segment} (hs : s ∈ segments source)
    (hlexeme : s.isLexeme) (hafter : Ends after) :
    segments (s.text ++ after) = s :: segments after := by
  obtain ⟨l, r, hsplit⟩ := List.append_of_mem hs
  obtain ⟨kind, literal, hshape⟩ := Segment.isLexeme_iff.1 hlexeme
  have hstands := segments_stand source hsplit
  rw [Segment.Stands, hshape] at hstands
  rw [segments_lexeme hstands hafter, ← hshape]

/-- Lexemes with blanks between them are cut into these lexemes and these blanks. -/
theorem segments_intercalate {source : List Char} {ss : List Segment}
    (h : ∀ s ∈ ss, s ∈ segments source ∧ s.isLexeme) :
    segments ([' '].intercalate (ss.map Segment.text)) = ss.intersperse gap := by
  induction ss with
  | nil => exact segments_nil
  | cons s rest ih =>
    obtain ⟨⟨hs, hlexeme⟩, hrest⟩ := List.forall_mem_cons.1 h
    cases rest with
    | nil =>
      have hlast := segments_append hs hlexeme .nil
      rw [List.append_nil, segments_nil] at hlast
      rw [List.map_singleton, List.intercalate_singleton, hlast, List.intersperse_singleton]
    | cons s' rest =>
      rw [List.map_cons, List.map_cons, List.intercalate_cons_cons, List.append_assoc,
        List.singleton_append, segments_append hs hlexeme (ends_gap _), segments_gap,
        ← List.map_cons, ih hrest, List.intersperse_cons_cons]

/-- Blanks between segments yield nothing. -/
theorem items_intersperse (line : Nat) (ss : List Segment) :
    items line (ss.intersperse gap) = items line ss := by
  induction ss generalizing line with
  | nil => rfl
  | cons s rest ih =>
    cases rest with
    | nil => rfl
    | cons s' rest =>
      rw [List.intersperse_cons_cons, items, items, ih, items]
      rfl

/-- A lexeme yields a token with its text. -/
theorem Segment.item?_of_isLexeme {s : Segment} (h : s.isLexeme) :
    ∃ kind literal, ∀ line,
      s.item? line = some (.ok ⟨kind, String.ofList s.text, literal, line⟩) := by
  obtain ⟨kind, literal, hshape⟩ := Segment.isLexeme_iff.1 h
  refine ⟨kind, literal, fun line => ?_⟩
  rw [Segment.item?, hshape]

/-- No other segment yields a token. -/
theorem Segment.tokens_item? {s : Segment} (h : ¬s.isLexeme) (line : Nat) :
    tokens (s.item? line).toList = [] := by
  unfold Segment.item?
  split
  · rfl
  · rfl
  · next kind literal hshape => exact absurd (Segment.isLexeme_iff.2 ⟨kind, literal, hshape⟩) h
  · rfl
  · rfl
  · rfl

theorem lexemes_innerItems (line : Nat) (ss : List Segment) :
    (tokens (innerItems line ss)).map Token.lexeme =
      (ss.filter Segment.isLexeme).map fun s => String.ofList s.text := by
  induction ss generalizing line with
  | nil => rfl
  | cons s rest ih =>
    rw [innerItems, tokens_append, List.map_append, ih]
    by_cases hs : s.isLexeme
    · obtain ⟨kind, literal, hitem⟩ := Segment.item?_of_isLexeme hs
      rw [hitem, List.filter_cons_of_pos hs]
      rfl
    · rw [Segment.tokens_item? hs, List.filter_cons_of_neg hs]
      rfl

/-- The lexemes of some segments yield the tokens of all of them, though on other lines, and no
error. -/
theorem items_filter (line line' : Nat) (ss : List Segment) :
    ∃ ts last, items line' (ss.filter Segment.isLexeme) =
        ts.map .ok ++ [.ok (Token.endOfFile last)] ∧
      List.Forall₂ (fun t t' => t' = { t with line := t'.line })
        (tokens (innerItems line ss)) ts := by
  induction ss generalizing line line' with
  | nil => exact ⟨[], line', rfl, .nil⟩
  | cons s rest ih =>
    rw [innerItems, tokens_append]
    by_cases hs : s.isLexeme
    · obtain ⟨kind, literal, hitem⟩ := Segment.item?_of_isLexeme hs
      obtain ⟨ts, last, hitems, halike⟩ :=
        ih (line + s.text.count '\n') (line' + s.text.count '\n')
      refine ⟨⟨kind, String.ofList s.text, literal, line' + s.text.count '\n'⟩ :: ts, last, ?_, ?_⟩
      · rw [List.filter_cons_of_pos hs, items, hitems, hitem]
        rfl
      · rw [hitem]
        exact .cons rfl halike
    · obtain ⟨ts, last, hitems, halike⟩ := ih (line + s.text.count '\n') line'
      rw [List.filter_cons_of_neg hs, Segment.tokens_item? hs]
      exact ⟨ts, last, hitems, halike⟩

end Lexer

/-- A source that is one lexeme is scanned to one token. -/
theorem scan_of_lexeme {kind : Kind} {literal : Option Literal} {source : String}
    (h : Lexeme kind literal source.toList) :
    let line := 1 + source.toList.count '\n'
    scan source = [.ok ⟨kind, source, literal, line⟩, .ok (Token.endOfFile line)] := by
  have hsegments := segments_lexeme h .nil
  rw [List.append_nil, segments_nil] at hsegments
  rw [scan_eq_items, hsegments, items, items, Segment.item?, String.ofList_toList]
  rfl

/-- The tokens of a source, but for the one that closes it. -/
def sourceTokens (source : String) : List Token :=
  (tokens (scan source)).filter (·.kind ≠ .eof)

theorem sourceTokens_eq (source : String) :
    sourceTokens source = tokens (innerItems 1 (segments source.toList)) := by
  have hinner : ∀ t ∈ tokens (innerItems 1 (segments source.toList)),
      decide (t.kind ≠ .eof) = true := by
    intro t ht
    simpa using (innerItems_token ht).1
  rw [sourceTokens, scan_eq, tokens_append, List.filter_append, List.filter_eq_self.2 hinner]
  exact List.append_nil _

/-- The texts of the tokens of a source, with single blanks between them, are scanned to the same
tokens again, and without an error. Only the lines may be others. -/
theorem scan_lexemes (source : String) :
    ∃ ts line, scan (" ".intercalate ((sourceTokens source).map Token.lexeme)) =
        ts.map .ok ++ [.ok (Token.endOfFile line)] ∧
      List.Forall₂ (fun t t' => t' = { t with line := t'.line }) (sourceTokens source) ts := by
  have htext : (" ".intercalate ((sourceTokens source).map Token.lexeme)).toList =
      [' '].intercalate (((segments source.toList).filter Segment.isLexeme).map Segment.text) := by
    rw [String.toList_intercalate, sourceTokens_eq, lexemes_innerItems, List.map_map]
    refine congrArg _ (List.map_congr_left fun s _ => ?_)
    exact String.toList_ofList
  have hcut := segments_intercalate fun s (hs : s ∈ (segments source.toList).filter _) =>
    List.mem_filter.1 hs
  obtain ⟨ts, line, hitems, halike⟩ := items_filter 1 1 (segments source.toList)
  refine ⟨ts, line, ?_, sourceTokens_eq source ▸ halike⟩
  rw [scan_eq_items, htext, hcut, items_intersperse, hitems]

end Lox
