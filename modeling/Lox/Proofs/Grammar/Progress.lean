import Lox.Proofs.Grammar.Trees

/-!
# Progress of the grammar

Every declaration takes at least one token, whether it is read or skipped: a statement ends with
a token of its own, and after a failure reading goes on beyond the token where it failed.

**Recovery.** After a failure at place `j` of the list, reading goes on at the first place beyond
`j` that is the end of the list, follows a semicolon or precedes a word that starts a statement
(`resume_drop`).

Reading a program ends at the end of its tokens, with no failure left over (`program_consumes`).
-/

namespace Lox.Grammar

open Rule

/-- One cursor has fewer tokens to go than the other. -/
def Cursor.Passes (c d : Cursor) : Prop := d.tokens.length < c.tokens.length

namespace Cursor

variable {c d e : Cursor}

theorem Passes.of_cons {t : Token} (h : c.tokens = t :: d.tokens) : c.Passes d := by
  unfold Passes
  rw [h]
  exact Nat.lt_succ_self _

theorem Passes.reaches (h : c.Passes d) (h' : d.Reaches e) : c.Passes e :=
  Nat.lt_of_le_of_lt h'.tokens.length_le h

theorem Reaches.passes (h : c.Reaches d) (h' : d.Passes e) : c.Passes e :=
  Nat.lt_of_lt_of_le h' h.tokens.length_le

end Cursor

/-! ## Recovery -/

/-- Places of a program where reading may go on after a failure: its end, a place behind a
semicolon, and a place before a word with which a statement starts. -/
def IsBoundary (tokens : List Token) (place : Nat) : Prop :=
  place = tokens.length ∨
    (∃ t, tokens[place - 1]? = some t ∧ t.kind = .semicolon) ∨
    (∃ t, tokens[place]? = some t ∧
      (t.kind = .classWord ∨ t.kind = .funWord ∨ t.kind = .varWord ∨ t.kind = .forWord ∨
        t.kind = .ifWord ∨ t.kind = .whileWord ∨ t.kind = .printWord ∨ t.kind = .returnWord))

/-- The first boundary beyond a place. -/
structure NextBoundary (tokens : List Token) (place next : Nat) : Prop where
  beyond : place < next
  boundary : IsBoundary tokens next
  first : ∀ i, place < i → i < next → ¬IsBoundary tokens i

/-- Between two tokens, the boundary shows in either of them. -/
theorem isBoundary_between {tokens : List Token} {place : Nat} {previous t : Token}
    {rest : List Token} (h : tokens.drop place = previous :: t :: rest) :
    IsBoundary tokens (place + 1) ↔ previous.kind = .semicolon ∨ startsStatement t.kind := by
  have hprevious : tokens[place]? = some previous := by
    rw [← List.head?_drop, h, List.head?_cons]
  have ht : tokens[place + 1]? = some t := by
    rw [← List.head?_drop, ← List.tail_drop, h, List.tail_cons, List.head?_cons]
  have hlen : place + 1 ≠ tokens.length := by
    intro hend
    rw [List.getElem?_eq_none (Nat.le_of_eq hend.symm)] at ht
    cases ht
  simp [IsBoundary, startsStatement, hlen, hprevious, ht]

/-- Where one token is left, the boundary is the end. -/
theorem nextBoundary_of_last {tokens : List Token} {place : Nat} {previous : Token}
    (h : tokens.drop place = [previous]) : NextBoundary tokens place (place + 1) := by
  have hlen : tokens.length = place + 1 := by
    have := congrArg List.length h
    simp only [List.length_drop, List.length_singleton] at this
    omega
  refine ⟨Nat.lt_succ_self _, .inl hlen.symm, fun i hi hi' => ?_⟩
  omega

theorem boundary_drop (tokens : List Token) (place : Nat) (previous : Token) (rest : List Token)
    (h : tokens.drop place = previous :: rest) (hplace : place < (programTokens tokens).length) :
    ∃ next, NextBoundary (programTokens tokens) place next ∧
      boundary previous rest = tokens.drop next := by
  -- Along the tokens that follow: each one is where reading goes on, or is passed over.
  induction rest generalizing place previous with
  | nil =>
    have hprogram := programTokens_drop (Nat.le_of_lt hplace)
    rw [h, programTokens_cons_of_open (kind_ne_eof_of_drop h hplace)] at hprogram
    refine ⟨place + 1, nextBoundary_of_last hprogram.symm, ?_⟩
    rw [boundary, ← List.tail_drop, h, List.tail_cons]
  | cons t rest ih =>
    have hprogram := programTokens_drop (Nat.le_of_lt hplace)
    rw [h, programTokens_cons_of_open (kind_ne_eof_of_drop h hplace)] at hprogram
    have hdrop : tokens.drop (place + 1) = t :: rest := by
      rw [← List.tail_drop, h, List.tail_cons]
    rw [boundary]
    by_cases ht : t.kind = .eof
    · rw [programTokens_cons_of_closing ht] at hprogram
      exact ⟨place + 1, nextBoundary_of_last hprogram.symm, by rw [if_pos (.inl ht), hdrop]⟩
    · rw [programTokens_cons_of_open ht] at hprogram
      have hbetween := isBoundary_between hprogram.symm
      split
      · next hstop =>
        refine ⟨place + 1, ⟨Nat.lt_succ_self _, hbetween.2 (hstop.resolve_left ht), ?_⟩, hdrop.symm⟩
        intro i hi hi'
        omega
      · next hgo =>
        have hplace' : place + 1 < (programTokens tokens).length := by
          have := congrArg List.length hprogram
          simp only [List.length_drop, List.length_cons] at this
          omega
        obtain ⟨next, hnext, heq⟩ := ih (place + 1) t hdrop hplace'
        refine ⟨next, ⟨Nat.lt_of_succ_lt hnext.beyond, hnext.boundary, fun i hi hi' => ?_⟩, heq⟩
        by_cases hi'' : i = place + 1
        · rw [hi'']
          exact mt hbetween.1 fun hstop => hgo (.inr hstop)
        · exact hnext.first i (by omega) hi'

/-- Where reading goes on after a failure at a place of the program: at the end if nothing is left,
and else at the first boundary beyond the place. -/
theorem resume_drop {tokens : List Token} {place : Nat}
    (hplace : place ≤ (programTokens tokens).length) :
    ∃ next, resume (tokens.drop place) = tokens.drop next ∧
      (place = (programTokens tokens).length → next = place) ∧
      (place < (programTokens tokens).length → NextBoundary (programTokens tokens) place next) := by
  cases h : tokens.drop place with
  | nil =>
    refine ⟨place, h.symm, fun _ => rfl, fun hlt => ?_⟩
    have hlen := programTokens_length_le tokens
    exact absurd (List.drop_eq_nil_iff.1 h) (by omega)
  | cons t rest =>
    rcases Nat.lt_or_eq_of_le hplace with hlt | heq
    · obtain ⟨next, hnext, hboundary⟩ := boundary_drop tokens place t rest h hlt
      refine ⟨next, ?_, fun heq => absurd heq (Nat.ne_of_lt hlt), fun _ => hnext⟩
      rw [resume, if_neg (kind_ne_eof_of_drop h hlt), hboundary]
    · have ht : t.kind = .eof := by
        have hprogram := programTokens_drop hplace
        rw [h, heq, List.drop_length] at hprogram
        by_contra ht
        rw [programTokens_cons_of_open ht] at hprogram
        cases hprogram
      exact ⟨place, by rw [resume, if_pos ht, h], fun _ => rfl,
        fun hlt => absurd heq (Nat.ne_of_lt hlt)⟩

/-- Reading goes on beyond the token where a declaration failed. -/
theorem tokens_resume_length_lt {c : Cursor} (h : c.tokens ≠ []) (error : GrammarError) :
    ({ c with input := resume c.input, errors := c.errors ++ [error] } : Cursor).tokens.length <
      c.tokens.length := by
  obtain ⟨t, rest, hc⟩ := List.exists_cons_of_ne_nil h
  obtain ⟨behind, hinput, ht, hrest⟩ := Cursor.tokens_eq_cons_iff.1 hc
  obtain ⟨passed, hpassed, hboundary⟩ := boundary_passed t behind
  have hlen : (programTokens (boundary t behind)).length ≤ rest.length := by
    rw [← hrest]
    nth_rewrite 2 [hboundary]
    rw [programTokens_append_of_open hpassed, List.length_append]
    exact Nat.le_add_left _ _
  rw [hc, List.length_cons, Cursor.tokens]
  show (programTokens (resume c.input)).length < _
  rw [hinput, resume, if_neg ht]
  exact Nat.lt_succ_of_le hlen

/-! ## Declarations -/

/-- What a declaration tries before it is skipped. -/
def attempt : Nat → Rule Stmt
  | 0 => failHere .expression
  | n + 1 => do
    match ← accept? [.classWord, .funWord, .varWord] with
    | none => statement n
    | some t =>
      match t.kind with
      | .classWord => classDecl n
      | .funWord => .funDecl <$> function n .function
      | _ => varDecl n

theorem declaration_eq (n : Nat) : declaration n = recover (attempt n) := by
  cases n <;> rfl

/-- A declaration that fails is recorded, and reading goes on at the next boundary. -/
theorem declaration_of_fail {n : Nat} {c d : Cursor} {error : GrammarError}
    (h : attempt n c = .fail error d) :
    declaration n c =
      .ok none { d with input := resume d.input, errors := d.errors ++ [error] } := by
  rw [declaration_eq, recover, h]

theorem function_passes (n : Nat) (role : FunctionRole) (c : Cursor) :
    (function n role).Gives c fun _ d => c.Passes d := by
  cases n with
  | zero => exact .failHere _
  | succ n =>
    refine (Gives.expect _ _).bind fun _ c₁ _ h => ?_
    refine (Gives.expect _ _).bind fun _ c₂ h₂ _ => ?_
    refine (params_built n c₂).bind fun _ c₃ h₃ _ => ?_
    refine (Gives.expect _ _).bind fun _ c₄ h₄ _ => ?_
    refine (Gives.expect _ _).bind fun _ c₅ h₅ _ => ?_
    refine ((statementsRead n).block c₅).bind fun _ d hd _ => .pure ?_
    exact (Cursor.Passes.of_cons h.2).reaches (h₂.trans (h₃.trans (h₄.trans (h₅.trans hd))))

theorem expressionStatement_passes (n : Nat) (c : Cursor) :
    (expressionStatement n).Gives c fun _ d => c.Passes d := by
  refine ((expressionsBuilt n).expression c).bind fun _ c₁ h₁ _ => ?_
  refine (Gives.expect _ _).bind fun _ d _ h => .pure ?_
  exact h₁.passes (.of_cons h.2)

theorem statement_passes (n : Nat) (c : Cursor) :
    (statement n).Gives c fun _ d => c.Passes d := by
  cases n with
  | zero => exact .failHere _
  | succ n =>
    refine (Gives.accept? _).bind ?_
    rintro _ c₁ h₁ (⟨rfl, rfl, -⟩ | ⟨t, rfl, -, ht⟩)
    · exact expressionStatement_passes n c₁
    · have hpast {α : Type} (v : α) (d : Cursor) (hd : c₁.Reaches d) : c.Passes d :=
        (Cursor.Passes.of_cons ht).reaches hd
      dsimp only
      split
      · exact ((statementsRead n).forLoop c₁).mono fun s d hd _ => hpast s d hd
      · exact ((statementsRead n).branch c₁).mono fun s d hd _ => hpast s d hd
      · exact ((statementsRead n).loop c₁).mono fun s d hd _ => hpast s d hd
      · exact (returnStatement_read t n c₁).mono fun s d hd _ => hpast s d hd
      · exact ((statementsRead n).block c₁).map fun ss d hd _ => hpast ss d hd
      · exact (printStatement_read n c₁).mono fun s d hd _ => hpast s d hd

theorem attempt_passes (n : Nat) (c : Cursor) :
    (attempt n).Gives c fun _ d => c.Passes d := by
  cases n with
  | zero => exact .failHere _
  | succ n =>
    refine (Gives.accept? _).bind ?_
    rintro _ c₁ h₁ (⟨rfl, rfl, -⟩ | ⟨t, rfl, -, ht⟩)
    · exact statement_passes n c₁
    · have hpast := Cursor.Passes.of_cons ht
      dsimp only
      split
      · exact ((statementsRead n).classDecl c₁).mono fun _ d hd _ => hpast.reaches hd
      · exact ((statementsRead n).function _ c₁).map fun _ d hd _ => hpast.reaches hd
      · exact (varDecl_read n c₁).mono fun _ d hd _ => hpast.reaches hd

/-- A declaration never fails, and takes at least one token unless none is left. -/
theorem declaration_passes (n : Nat) (c : Cursor) :
    ∃ s d, declaration n c = .ok s d ∧ c.Reaches d ∧ (c.tokens ≠ [] → c.Passes d) := by
  have hgives := attempt_passes n c
  cases h : attempt n c with
  | ok s d =>
    obtain ⟨hreach, hpast⟩ := hgives.of_ok h
    exact ⟨some s, d, by rw [declaration_eq, recover, h], hreach, fun _ => hpast⟩
  | fail error d =>
    have hreach := hgives.of_fail h
    have hresume := d.reaches_resume error
    refine ⟨none, _, declaration_of_fail h, hreach.trans hresume, fun hc => ?_⟩
    by_cases hd : d.tokens = []
    · -- The failure is at the end: everything has been taken.
      have hend : ({ d with input := resume d.input, errors := d.errors ++ [error] } :
          Cursor).tokens = [] := List.suffix_nil.1 (hd ▸ hresume.tokens)
      rw [Cursor.Passes, hend]
      exact List.length_pos_iff.2 hc
    · exact Nat.lt_of_lt_of_le (tokens_resume_length_lt hd error) hreach.tokens.length_le

theorem program_nil {n : Nat} {c : Cursor} (hc : c.tokens = []) :
    program (n + 1) c = .ok [] c := by
  rw [program]
  simp only [Bind.bind, peek?_eq, hc, List.head?_nil, Option.map_none]
  rfl

theorem program_cons {n : Nat} {c d e : Cursor} {s : Option Stmt} {ss : List Stmt}
    (hc : c.tokens ≠ []) (hs : declaration n c = .ok s d) (hss : program n d = .ok ss e) :
    program (n + 1) c = .ok (s.toList ++ ss) e := by
  obtain ⟨t, rest, hc⟩ := List.exists_cons_of_ne_nil hc
  rw [program]
  simp only [Bind.bind, peek?_eq, hc, List.head?_cons, Option.map_some, hs, hss]
  rfl

/-- With more rounds than tokens, a program is read to the end of its tokens. -/
theorem program_consumes {n : Nat} {c : Cursor} (hn : c.tokens.length < n) :
    ∃ ss d, program n c = .ok ss d ∧ d.tokens = [] := by
  induction n generalizing c with
  | zero => exact absurd hn (Nat.not_lt_zero _)
  | succ n ih =>
    by_cases hc : c.tokens = []
    · exact ⟨[], c, program_nil hc, hc⟩
    · obtain ⟨s, d, hs, -, hpast⟩ := declaration_passes n c
      have hlen : d.tokens.length < c.tokens.length := hpast hc
      obtain ⟨ss, e, hss, he⟩ := ih (c := d) (by omega)
      exact ⟨s.toList ++ ss, e, program_cons hc hs hss, he⟩

end Lox.Grammar
