import Lox.Proofs.Grammar.Concat
import Lox.Proofs.Session.Alike
import Lox.Proofs.Session.Lookup
import Lox.Proofs.Token.Segments

/-!
# Programs in pieces

Two sources can be put into one, with a newline between them. The session that runs the first and
then the second comes to the same end as the session that runs them as one: the same output, the
same runtime error, and the same answers to everything that follows (`Session.run_in_pieces`).

The two sessions hand out different node ids, and the tokens of the second source stand on other
lines. So they are compared up to a likeness of tokens. `Concat` says how the whole source is made
of the two pieces, and all that follows from it is proved for every likeness: no static error comes
up in the whole source (`Concat.valid`), and the sessions come to alike ends (`Concat.run`).
-/

namespace Lox

open Scoping Lexer

/-! ## Tokens of two sources -/

theorem programTokens_scan (source : String) :
    programTokens (tokens (scan source)) = tokens (innerItems 1 (segments source.toList)) := by
  rw [scan_eq, tokens_append]
  exact programTokens_closed (fun _ ht => (innerItems_token ht).1) rfl []

theorem programTokens_down (lines : Nat) (ts : List Token) :
    programTokens (ts.map (Token.down · lines)) = (programTokens ts).map (Token.down · lines) :=
  List.takeWhile_map ..

/-- The tokens of two sources with a newline between them. -/
theorem programTokens_newline {first : String} (h : errors (scan first) = []) (second : String) :
    programTokens (tokens (scan (first ++ "\n" ++ second))) =
      programTokens (tokens (scan first)) ++
        (programTokens (tokens (scan second))).map
          (Token.down · (1 + first.toList.count '\n')) := by
  rw [scan_newline h, tokens_append, tokens_down, ← programTokens_down, programTokens_scan first]
  refine List.takeWhile_append_of_pos fun t ht => ?_
  simpa using (innerItems_token ht).1

/-- Some empty lines. -/
def emptyLines (n : Nat) : String := String.ofList (List.replicate n '\n')

/-- Empty lines before a source move it down. -/
theorem scan_emptyLines (n : Nat) (source : String) :
    scan (emptyLines n ++ source) = (scan source).map (Item.down n) := by
  induction n with
  | zero =>
    have hid : Item.down 0 = id := by
      funext item
      cases item <;> rfl
    rw [hid, List.map_id]
    exact congrArg scan (String.empty_append)
  | succ n ih =>
    -- One line at a time: an empty source, a newline, and the other lines.
    have hlines : emptyLines (n + 1) ++ source = "" ++ "\n" ++ (emptyLines n ++ source) := by
      apply String.ext
      simp [emptyLines, List.replicate_succ]
    have hdown : Item.down 1 ∘ Item.down n = Item.down (n + 1) := by
      funext item
      cases item <;> rfl
    have hempty : errors (scan "") = [] := by decide +kernel
    rw [hlines, scan_newline hempty, ih, List.map_map, ← hdown]
    simp [segments, innerItems]

/-! ## Programs that follow one another -/

theorem Scoping.Context.defineAll_top (names : List Token) :
    Context.top.defineAll names = Context.top := by
  induction names with
  | nil => rfl
  | cons name names ih => exact ih

/-- Global names are not kept, so statements at the top level are visited apart. -/
theorem Stmt.visitsAll_top_append (ss ss' : List Stmt) :
    Stmt.visitsAll .top (ss ++ ss') = Stmt.visitsAll .top ss ++ Stmt.visitsAll .top ss' := by
  induction ss with
  | nil => rfl
  | cons s ss ih =>
    rw [List.cons_append, Stmt.visitsAll, Stmt.visitsAll, Context.defineAll_top, ih,
      List.append_assoc]

/-- Tokens of the `kept` sources stay where they are, and those of the `moved` one stand further
down. -/
def Likeness.shift (kept : List String) (moved : String) (lines : Nat) : Likeness where
  rel t t' := (t' = t ∧ ∃ source ∈ kept, t ∈ tokens (scan source)) ∨
    (t' = t.down lines ∧ t ∈ tokens (scan moved))
  text h := by
    rcases h with ⟨rfl, -⟩ | ⟨rfl, -⟩ <;> rfl

namespace Session

variable {s s' : Session} {first second whole : String} {T : Likeness} {fuel fuel' : Nat}

variable (T) in
/-- A source is made of two others: its tokens correspond to those of the one and then to those of
the other. -/
structure Concat (first second whole : String) : Prop where
  lexical : errors (scan whole) = []
  tokens : ∃ ts ts', programTokens (tokens (scan whole)) = ts ++ ts' ∧
    List.Forall₂ T.rel (programTokens (tokens (scan first))) ts ∧
    List.Forall₂ T.rel (programTokens (tokens (scan second))) ts'

namespace Concat

/-- The statements of the whole are those of the pieces. -/
theorem statements (h : Concat T first second whole) (h₁ : Valid first) (h₂ : Valid second)
    (s₁ s₂ s : Session) :
    (s.parsed whole).errors = [] ∧
      ∃ ss ss', (s.parsed whole).statements = ss ++ ss' ∧
        Stmt.AlikeAll AnyNode T (s₁.parsed first).statements ss ∧
        Stmt.AlikeAll AnyNode T (s₂.parsed second).statements ss' := by
  obtain ⟨ts, ts', hwhole, hts, hts'⟩ := h.tokens
  exact parse_concat hwhole hts hts' h₁.2.1 h₂.2.1 s₁.nextId s₂.nextId s.nextId

/-- The whole has no static error if the pieces have none. -/
theorem valid (h : Concat T first second whole) (h₁ : Valid first) (h₂ : Valid second) :
    Valid whole := by
  obtain ⟨ts, ts', hwhole, hts, hts'⟩ := h.tokens
  obtain ⟨herrors, ss, ss', hsplit, hss, hss'⟩ :=
    parse_concat hwhole hts hts' h₁.2.1 h₂.2.1 0 0 0
  refine ⟨h.lexical, herrors, ?_⟩
  have ho := hss.offences
  have ho' := hss'.offences
  rw [h₁.2.2, List.forall₂_nil_left_iff] at ho
  rw [h₂.2.2, List.forall₂_nil_left_iff] at ho'
  rw [check_eq] at ho ho'
  rw [hsplit, check_eq, Stmt.visitsAll_top_append, List.flatMap_append, offences_append, ho, ho']
  rfl

end Concat

/-- A program that ends well goes on with what follows it. -/
theorem conclude_append {r : Session} {t : Transcript} {ss rest : List Stmt}
    (h : s.conclude fuel ss = some (r, t)) (ht : t.runtimeError = none) :
    s.conclude fuel (ss ++ rest) = r.conclude fuel rest := by
  obtain ⟨⟨error, i⟩, hrun, hend⟩ := Option.map_eq_some_iff.1 h
  obtain ⟨rfl, rfl⟩ := Prod.mk.inj hend
  cases (show error = none from ht)
  rw [conclude, Interpreter.interpret_append hrun, conclude, Option.isSome_none, Bool.or_false]

theorem conclude_mono {r : Session × Transcript} {ss : List Stmt}
    (h : s.conclude fuel ss = some r) (hle : fuel ≤ fuel') : s.conclude fuel' ss = some r := by
  obtain ⟨x, hrun, hend⟩ := Option.map_eq_some_iff.1 h
  exact Option.map_eq_some_iff.2 ⟨x, Interpreter.interpret_mono hrun hle, hend⟩

/-- What a program does not change. -/
theorem conclude_eq_some {r : Session} {t : Transcript} {ss : List Stmt}
    (h : s.conclude fuel ss = some (r, t)) :
    r.interpreter.distances = s.interpreter.distances ∧ r.nextId = s.nextId ∧
      r.hadError = false := by
  obtain ⟨⟨error, i⟩, hrun, hend⟩ := Option.map_eq_some_iff.1 h
  obtain ⟨rfl, rfl⟩ := Prod.mk.inj hend
  exact ⟨Interpreter.interpret_distances hrun, rfl, rfl⟩

/-- The first piece, in the session that runs both and in the one that runs the whole. -/
theorem Concat.run_first (h : Concat T first second whole) (hself : s.Alike T s)
    (he : s.hadError = false) (h₁ : Valid first) (h₂ : Valid second) {ss ss' : List Stmt}
    (hsplit : (s.parsed whole).statements = ss ++ ss')
    (hss : Stmt.AlikeAll AnyNode T (s.parsed first).statements ss) (fuel : Nat) :
    Option.Rel (SameEnd T) (s.run fuel first) ((s.filed whole).conclude fuel ss) := by
  have ha : s.Accepts first := accepts_iff.2 ⟨he, h₁⟩
  have ha' : s.Accepts whole := accepts_iff.2 ⟨he, h.valid h₁ h₂⟩
  rw [run_of_accepts ha]
  refine Alike.conclude ?_ ?_ fuel
  · exact hself.extend (extends_filed hself.unfiled _ _ _) (extends_filed hself.unfiled _ _ _)
      rfl rfl
  · refine hss.refine (visitsMatch ha ha' hself.unfiled hself.unfiled) Context.top
      (List.Subset.refl _) ?_
    rw [hsplit, Stmt.visitsAll_top_append]
    exact List.subset_append_left _ _

/-- Running the pieces one after the other and running the whole come to alike ends. -/
theorem Concat.run (h : Concat T first second whole) (hself : s.Alike T s)
    (he : s.hadError = false) (h₁ : Valid first) (h₂ : Valid second) {t : Transcript}
    (hrun : s.run fuel first = some (s', t)) (ht : t.runtimeError = none) (hle : fuel ≤ fuel') :
    Option.Rel (SameEnd T) (s'.run fuel' second) (s.run fuel' whole) := by
  have ha₁ : s.Accepts first := accepts_iff.2 ⟨he, h₁⟩
  have ha : s.Accepts whole := accepts_iff.2 ⟨he, h.valid h₁ h₂⟩
  rw [run_of_accepts ha₁] at hrun
  have ha₂ : s'.Accepts second := accepts_iff.2 ⟨(conclude_eq_some hrun).2.2, h₂⟩
  obtain ⟨-, ss, ss', hsplit, hss, hss'⟩ := h.statements h₁ h₂ s s' s
  -- One session has run the first piece, and the other comes through the first part alike.
  have hfirst := h.run_first hself he h₁ h₂ hsplit hss fuel'
  rw [run_of_accepts ha₁, conclude_mono hrun hle] at hfirst
  cases hend : (s.filed whole).conclude fuel' ss with
  | none =>
    rw [hend] at hfirst
    cases hfirst
  | some r =>
    obtain ⟨w, t'⟩ := r
    rw [hend] at hfirst
    cases hfirst with
    | some hsame =>
      obtain ⟨halike, -, hruntime⟩ := hsame
      have ht' : t'.runtimeError = none := by
        have hsome := hruntime.isSome_eq
        rw [ht] at hsome
        simpa using hsome
      obtain ⟨hdistances, hnext, -⟩ := conclude_eq_some hend
      rw [run_of_accepts ha₂, run_of_accepts ha, hsplit, conclude_append hend ht']
      refine Alike.conclude ?_ ?_ fuel'
      · exact halike.extend (extends_filed halike.unfiled _ _ _) (.refl halike.unfiled')
          halike.hadError halike.hadRuntimeError
      · -- What is on file when the whole has run its first part is what was filed before the run.
        have hmatch := visitsMatch ha₂ ha halike.unfiled hself.unfiled
        have hnodes :
            (s'.filed second).SameNode w = (s'.filed second).SameNode (s.filed whole) := by
          unfold SameNode
          rw [hdistances, hnext]
        rw [hnodes]
        refine hss'.refine hmatch Context.top (List.Subset.refl _) ?_
        rw [hsplit, Stmt.visitsAll_top_append]
        exact List.subset_append_right _ _

theorem Concat.follow (h : Concat T first second whole) (hself : s.Alike T s)
    (he : s.hadError = false) (h₁ : Valid first) (h₂ : Valid second) {t : Transcript}
    (hrun : s.run fuel first = some (s', t)) (ht : t.runtimeError = none) (hle : fuel ≤ fuel')
    (steps : List Step) (hsteps : ∀ source ∈ steps.filterMap Step.source?, Reads T source) :
    Option.Rel (List.Forall₂ (Answer.Alike T)) (s'.follow (.run fuel' second :: steps))
      (s.follow (.run fuel' whole :: steps)) :=
  follow_of_sameEnd (h.run hself he h₁ h₂ hrun ht hle) fun _ _ halike =>
    halike.follow steps hsteps

/-! ## One piece after the other -/

theorem reads_shift {kept : List String} {source : String} (h : source ∈ kept) (moved : String)
    (lines : Nat) : Reads (.shift kept moved lines) source :=
  fun _ ht => .inl ⟨rfl, source, h, ht⟩

/-- The tokens of a source correspond to themselves further down. -/
theorem forall₂_shift (kept : List String) (moved : String) (lines : Nat) :
    List.Forall₂ (Likeness.shift kept moved lines).rel (programTokens (tokens (scan moved)))
      ((programTokens (tokens (scan moved))).map (Token.down · lines)) :=
  List.forall₂_map_right_iff.2 (List.forall₂_same.2 fun _ ht =>
    .inr ⟨rfl, (List.takeWhile_sublist _).subset ht⟩)

theorem errors_newline (h₁ : Valid first) (h₂ : Valid second) :
    errors (scan (first ++ "\n" ++ second)) = [] := by
  rw [scan_newline h₁.1, errors_append, ← errors_scan, h₁.1, errors_down, h₂.1]
  rfl

theorem concat_shift {kept : List String} (hkept : first ∈ kept) (h₁ : Valid first)
    (h₂ : Valid second) :
    Concat (.shift kept second (1 + first.toList.count '\n')) first second
      (first ++ "\n" ++ second) := by
  refine ⟨errors_newline h₁ h₂, _, _, programTokens_newline h₁.1 second, ?_, ?_⟩
  · exact List.forall₂_same.2 fun t ht =>
      reads_shift hkept _ _ t ((List.takeWhile_sublist _).subset ht)
  · exact forall₂_shift _ _ _

theorem programTokens_emptyLines (n : Nat) (source : String) :
    programTokens (tokens (scan (emptyLines n ++ source))) =
      (programTokens (tokens (scan source))).map (Token.down · n) := by
  rw [scan_emptyLines, tokens_down, programTokens_down]

theorem valid_emptyLines (n : Nat) (h : Valid second) : Valid (emptyLines n ++ second) := by
  have hconcat : Concat (.shift [] second n) "" second (emptyLines n ++ second) := by
    refine ⟨?_, [], _, programTokens_emptyLines n second, ?_, forall₂_shift _ _ _⟩
    · rw [scan_emptyLines, errors_down, h.1]
      rfl
    · have hempty : programTokens (tokens (scan "")) = [] := by decide +kernel
      rw [hempty]
      exact .nil
  exact hconcat.valid (by decide +kernel) h

theorem concat_emptyLines (h₁ : Valid first) (h₂ : Valid second) :
    Concat .same first (emptyLines (1 + first.toList.count '\n') ++ second)
      (first ++ "\n" ++ second) := by
  refine ⟨errors_newline h₁ h₂, _, _, programTokens_newline h₁.1 second, ?_, ?_⟩
  · exact Likeness.forall₂_same _
  · rw [← programTokens_emptyLines]
    exact Likeness.forall₂_same _

/-- Running a program in pieces is running it whole. Whatever a session has come through, let two
sources without static errors be given and let the first end without a runtime error. Then the
second after the first gives the answer that both give as one, and so do all steps that follow, up
to the lines of tokens of the second source. These lines are off by the lines of the first source:
if that many empty lines stand before the second source, the answers are equal. -/
theorem run_in_pieces {earlier : List String} (hs : s.Reached earlier) (he : s.hadError = false)
    (h₁ : Valid first) (h₂ : Valid second) {t : Transcript}
    (hrun : s.run fuel first = some (s', t)) (ht : t.runtimeError = none) (hle : fuel ≤ fuel')
    (steps : List Step) :
    let whole := first ++ "\n" ++ second
    let lines := 1 + first.toList.count '\n'
    let others := earlier ++ first :: steps.filterMap Step.source?
    Option.Rel (List.Forall₂ (Answer.Alike (.shift others second lines)))
        (s'.follow (.run fuel' second :: steps)) (s.follow (.run fuel' whole :: steps)) ∧
      s'.follow (.run fuel' (emptyLines lines ++ second) :: steps) =
        s.follow (.run fuel' whole :: steps) := by
  intro whole lines others
  constructor
  · have hreads : ∀ source ∈ others, Reads (.shift others second lines) source :=
      fun source h => reads_shift h second lines
    obtain ⟨hearlier, hlater⟩ := List.forall_mem_append.1 hreads
    have hfirst : first ∈ others := List.mem_append_right _ List.mem_cons_self
    exact (concat_shift hfirst h₁ h₂).follow (hs.alike hearlier) he h₁ h₂ hrun ht hle
      steps fun source h => hlater source (List.mem_cons_of_mem _ h)
  -- With the second source moved down by as many lines, all tokens are the same.
  · have hself : s.Alike .same s := hs.alike fun _ _ _ _ => ⟨rfl, trivial⟩
    exact (answers_eq ((concat_emptyLines h₁ h₂).follow hself he h₁ (valid_emptyLines lines h₂)
      hrun ht hle steps fun _ _ _ _ => ⟨rfl, trivial⟩)).symm

/-- The second source ends at a sign on its second line, which is the fourth line of the whole. -/
theorem run_in_pieces_negation :
    let first := "var a = nil;\nfun f(x) { return -x; }"
    let second := "print a;\nf(-a);"
    ∃ s' t, still.run 30 first = some (s', t) ∧ t.runtimeError = none ∧
      (s'.follow [.run 30 second]).map (·.map (·.runtimeError)) =
        some [some (.fault ⟨.minus, "-", none, 2⟩ .operandNotNumber)] ∧
      (still.follow [.run 30 (first ++ "\n" ++ second)]).map (·.map (·.runtimeError)) =
        some [some (.fault ⟨.minus, "-", none, 4⟩ .operandNotNumber)] ∧
      Option.Rel (List.Forall₂ (Answer.Alike (.shift [first] second 2)))
        (s'.follow [.run 30 second]) (still.follow [.run 30 (first ++ "\n" ++ second)]) := by
  intro first second
  have h₁ : Valid first := by decide +kernel
  have h₂ : Valid second := by decide +kernel
  have hsome : (still.run 30 first).map (·.2.runtimeError) = some none := by decide +kernel
  obtain ⟨⟨s', t⟩, hrun, ht⟩ := Option.map_eq_some_iff.1 hsome
  have hpieces : ((still.run 30 first).bind fun r => r.1.follow [.run 30 second]).map
      (·.map (·.runtimeError)) =
        some [some (.fault ⟨.minus, "-", none, 2⟩ .operandNotNumber)] := by decide +kernel
  rw [hrun] at hpieces
  have hwhole : (still.follow [.run 30 (first ++ "\n" ++ second)]).map (·.map (·.runtimeError)) =
      some [some (.fault ⟨.minus, "-", none, 4⟩ .operandNotNumber)] := by decide +kernel
  have hs : still.Reached [] := .new {} fun _ => 0
  have hlines : first.toList.count '\n' = 1 := by decide +kernel
  have hsame := (run_in_pieces hs rfl h₁ h₂ hrun ht (Nat.le_refl 30) []).1
  rw [hlines] at hsame
  exact ⟨s', t, hrun, ht, hpieces, hwhole, hsame⟩

end Session

end Lox
