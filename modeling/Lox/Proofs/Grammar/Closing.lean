import Lox.Proofs.Grammar.Parametric

/-!
# The token that closes a list

A program ends before the first closing token of its list. The rules come to that token wherever
they look ahead, skip tokens or report an error, and nowhere learn more than that it is there. So
nothing behind it is looked at, and of the token itself nothing but its line is shown: it is the
line of the errors at the end. A list that lacks the token is read as if it were closed on line
zero.

Lists with the same program correspond token by token and id by id, so `parse_alike` carries this
through all the rules (`parse_congr`). An error is located at a token of the program or at the one
that closes it (`GrammarError.Same`), and the two cannot be confused (`Token.location_eq_end_iff`),
so it is known of every error whose line depends on the closing token.

Main statement: `parse_stops_at_end`.
-/

namespace Lox

/-- Only the closing token is shown as the end. -/
theorem Token.location_eq_end_iff (t : Token) : t.location = " at end" ↔ t.kind = .eof := by
  unfold Token.location
  constructor
  · intro h
    split at h
    · assumption
    · have hlist := congrArg String.toList h
      simp at hlist
  · intro h
    rw [if_pos h]

/-- The report, moved to another line if it is located at the end. -/
def Report.endOn (line : Nat) : Report → Report
  | .grammar old location message =>
    .grammar (if location = " at end" then line else old) location message
  | r => r

/-- The same error in two lists with one program: at the same token of the program, or at the
tokens that close the lists. -/
structure GrammarError.Same (program : List Token) (finish finish' : Token)
    (e e' : GrammarError) : Prop where
  fault : e'.fault = e.fault
  site : (e.site ∈ program ∧ e'.site = e.site) ∨ (e.site = finish ∧ e'.site = finish')

namespace GrammarError.Same

variable {program : List Token} {finish finish' : Token} {e e' : GrammarError}

theorem eq (h : e.Same program finish finish e') : e' = e := by
  obtain ⟨site, fault⟩ := e
  obtain ⟨site', fault'⟩ := e'
  obtain ⟨rfl, ⟨-, rfl⟩ | ⟨rfl, rfl⟩⟩ := h <;> rfl

/-- The error is shown the same, on the line of the other closing token if it is at the end. -/
theorem report (h : e.Same program finish finish' e') (hopen : ∀ t ∈ program, t.kind ≠ .eof)
    (hfinish : finish.kind = .eof) (hfinish' : finish'.kind = .eof) :
    e'.report = e.report.endOn finish'.line := by
  rcases h.site with ⟨hmem, hsite⟩ | ⟨hsite, hsite'⟩
  · have hother : e.site.location ≠ " at end" := fun h =>
      hopen e.site hmem (e.site.location_eq_end_iff.1 h)
    simp [GrammarError.report, Report.grammarAt, Report.endOn, h.fault, hsite, hother]
  · have hend := finish.location_eq_end_iff.2 hfinish
    have hend' := finish'.location_eq_end_iff.2 hfinish'
    simp [GrammarError.report, Report.grammarAt, Report.endOn, h.fault, hsite, hsite', hend, hend']

end GrammarError.Same

/-- Two lists with the same program say the same, but for the tokens that close them. -/
theorem parse_congr {tokens tokens' : List Token} (h : programTokens tokens' = programTokens tokens)
    (firstId : NodeId) :
    (parse firstId tokens').statements = (parse firstId tokens).statements ∧
      (parse firstId tokens').nextId = (parse firstId tokens).nextId ∧
      List.Forall₂ (GrammarError.Same (programTokens tokens) (closingToken tokens)
        (closingToken tokens')) (parse firstId tokens).errors (parse firstId tokens').errors := by
  -- Every token of the program corresponds to itself, and the closing tokens to each other.
  let inside : Likeness := .on (· ∈ programTokens tokens)
  let C : Correspondence :=
    ⟨inside, fun t t' => t = closingToken tokens ∧ t' = closingToken tokens', Eq, congrArg (· + 1)⟩
  have hself : List.Forall₂ inside.rel (programTokens tokens) (programTokens tokens') :=
    h.symm ▸ List.forall₂_same.2 fun t ht => ⟨rfl, ht⟩
  have hclosing : C.closing (closingToken tokens) (closingToken tokens') := ⟨rfl, rfl⟩
  obtain ⟨hstatements, herrors, hnext⟩ := parse_alike C hself hclosing firstId firstId rfl
  have hsame : inside.rel ≤ Likeness.same.rel := fun _ _ ht => ⟨ht.1, trivial⟩
  refine ⟨(hstatements.mono le_rfl hsame).eq, Eq.symm hnext, herrors.imp fun e e' he => ?_⟩
  exact ⟨he.fault, he.site.imp_left And.symm⟩

/-- Their errors differ in the lines of those at the end. -/
theorem reports_congr {tokens tokens' : List Token}
    (h : programTokens tokens' = programTokens tokens) (firstId : NodeId) :
    (parse firstId tokens').reports =
      (parse firstId tokens).reports.map (Report.endOn (closingToken tokens').line) := by
  have herrors := (parse_congr h firstId).2.2
  unfold Parsed.reports
  generalize (parse firstId tokens).errors = es at herrors ⊢
  generalize (parse firstId tokens').errors = es' at herrors ⊢
  -- Error by error: one at the end takes the line of the other closing token.
  induction herrors with
  | nil => rfl
  | cons he _ ih =>
    have hreport := he.report (fun t ht => kind_ne_eof_of_mem ht) (closingToken_kind _)
      (closingToken_kind _)
    rw [List.map_cons, List.map_cons, List.map_cons, hreport, ih]

/-- What stands behind the closing token makes no difference. -/
theorem parse_eq_of_closing {tokens tokens' : List Token}
    (h : programTokens tokens' = programTokens tokens)
    (hclosing : closingToken tokens' = closingToken tokens) (firstId : NodeId) :
    parse firstId tokens' = parse firstId tokens := by
  obtain ⟨hstatements, hnext, herrors⟩ := parse_congr h firstId
  rw [hclosing] at herrors
  have heq := herrors.imp fun _ _ he => he.eq.symm
  rw [List.forall₂_eq_eq_eq] at heq
  generalize parse firstId tokens = p at hstatements hnext heq ⊢
  generalize parse firstId tokens' = p' at hstatements hnext heq ⊢
  obtain ⟨statements, errors, nextId⟩ := p
  obtain ⟨statements', errors', nextId'⟩ := p'
  dsimp only at hstatements hnext heq
  rw [hstatements, hnext, heq]

/-- Reading sees only the tokens before the first closing one. What follows that token makes no
difference at all. Without the token there are the same statements, the same next id and the same
errors in the same order, but those at the end are on line zero instead of its line. All other
errors are located at tokens before it. -/
theorem parse_stops_at_end {tokens : List Token} {finish : Token}
    (hopen : ∀ t ∈ tokens, t.kind ≠ .eof) (hfinish : finish.kind = .eof) (firstId : NodeId)
    (more : List Token) :
    let closed := parse firstId (tokens ++ [finish])
    let cut := parse firstId tokens
    parse firstId (tokens ++ [finish] ++ more) = closed ∧
      cut.statements = closed.statements ∧ cut.nextId = closed.nextId ∧
      List.Forall₂ (GrammarError.Same tokens finish (Token.endOfFile 0)) closed.errors cut.errors ∧
      cut.reports = closed.reports.map (Report.endOn 0) ∧
      closed.reports = cut.reports.map (Report.endOn finish.line) := by
  intro closed cut
  have hmore : tokens ++ [finish] ++ more = tokens ++ finish :: more := List.append_cons ..|>.symm
  have hclosed : programTokens (tokens ++ [finish]) = tokens :=
    programTokens_closed hopen hfinish []
  have hend : closingToken (tokens ++ [finish]) = finish := closingToken_closed hopen hfinish []
  have hcut : programTokens tokens = tokens := programTokens_of_open hopen
  have hnone : closingToken tokens = Token.endOfFile 0 := by
    rw [← List.append_nil tokens, closingToken_append_of_open hopen]
    rfl
  -- All three lists have the same program, and the first two the same closing token.
  have hprogram : programTokens tokens = programTokens (tokens ++ [finish]) :=
    hcut.trans hclosed.symm
  obtain ⟨hstatements, hnext, herrors⟩ := parse_congr hprogram firstId
  refine ⟨?_, hstatements, hnext, ?_, ?_, ?_⟩
  · rw [hmore]
    refine parse_eq_of_closing ?_ ?_ firstId
    · rw [hclosed, programTokens_closed hopen hfinish]
    · rw [hend, closingToken_closed hopen hfinish]
  · rwa [hclosed, hend, hnone] at herrors
  · have hreports := reports_congr hprogram firstId
    rwa [hnone] at hreports
  · have hreports := reports_congr hprogram.symm firstId
    rwa [hend] at hreports

/-- A word without its expression, and another one behind the closing token. -/
theorem parse_stops_at_end_unfinished :
    let tokens : List Token := [⟨.printWord, "print", none, 7⟩]
    let closed := parse 0 (tokens ++ [Token.endOfFile 8])
    parse 0 (tokens ++ [Token.endOfFile 8] ++ tokens) = closed ∧
      (parse 0 tokens).reports = closed.reports.map (Report.endOn 0) ∧
      closed.reports.map Report.text = ["[line 8] Error at end: Expect expression."] ∧
      (parse 0 tokens).reports.map Report.text = ["[line 0] Error at end: Expect expression."] := by
  intro tokens closed
  have hstops := @parse_stops_at_end tokens (Token.endOfFile 8) (by decide) rfl 0 tokens
  exact ⟨hstops.1, hstops.2.2.2.2.1, by decide, by decide⟩

end Lox
