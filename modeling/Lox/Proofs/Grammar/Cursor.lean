import Lox.Grammar.Statement
import Mathlib.Data.List.TakeWhile
import Mathlib.Tactic.Common

/-!
# What a rule does to its cursor

A rule only ever moves on: it takes tokens from the front, hands out ids upwards and adds errors
at the back (`Cursor.Reaches`). It never takes a closing token, so what it can read are the tokens
of the program (`Cursor.tokens`), and of the token that closes the program (`closingToken`) it
knows no more than that it is there.

What a rule gives is stated with `Rule.Gives`, which goes through a rule step by step: `Gives.bind`
for two steps in a row, and one lemma for each step there is.
-/

namespace Lox

/-- The tokens of the program in a list: those before the first closing token. -/
def programTokens (tokens : List Token) : List Token := tokens.takeWhile (·.kind ≠ .eof)

/-- The token that closes the program in a list. -/
def closingToken (tokens : List Token) : Token :=
  (tokens.find? (·.kind = .eof)).getD Grammar.endOfInput

theorem programTokens_cons_of_open {t : Token} (h : t.kind ≠ .eof) (tokens : List Token) :
    programTokens (t :: tokens) = t :: programTokens tokens :=
  List.takeWhile_cons_of_pos (by simpa using h)

theorem programTokens_cons_of_closing {t : Token} (h : t.kind = .eof) (tokens : List Token) :
    programTokens (t :: tokens) = [] :=
  List.takeWhile_cons_of_neg (by simpa using h)

theorem programTokens_append_of_open {tokens : List Token} (h : ∀ t ∈ tokens, t.kind ≠ .eof)
    (more : List Token) : programTokens (tokens ++ more) = tokens ++ programTokens more :=
  List.takeWhile_append_of_pos (by simpa using h)

theorem programTokens_of_open {tokens : List Token} (h : ∀ t ∈ tokens, t.kind ≠ .eof) :
    programTokens tokens = tokens :=
  List.takeWhile_eq_self_iff.2 (by simpa using h)

theorem closingToken_append_of_open {tokens : List Token} (h : ∀ t ∈ tokens, t.kind ≠ .eof)
    (more : List Token) : closingToken (tokens ++ more) = closingToken more := by
  have hnone : tokens.find? (·.kind = .eof) = none := by simpa using h
  rw [closingToken, closingToken, List.find?_append, hnone, Option.none_or]

theorem closingToken_kind (tokens : List Token) : (closingToken tokens).kind = .eof := by
  unfold closingToken
  cases hfind : tokens.find? (·.kind = .eof) with
  | none => rfl
  | some t => simpa using List.find?_some hfind

theorem programTokens_closed {tokens : List Token} {finish : Token}
    (h : ∀ t ∈ tokens, t.kind ≠ .eof) (hfinish : finish.kind = .eof) (more : List Token) :
    programTokens (tokens ++ finish :: more) = tokens := by
  rw [programTokens_append_of_open h, programTokens_cons_of_closing hfinish, List.append_nil]

theorem closingToken_closed {tokens : List Token} {finish : Token}
    (h : ∀ t ∈ tokens, t.kind ≠ .eof) (hfinish : finish.kind = .eof) (more : List Token) :
    closingToken (tokens ++ finish :: more) = finish := by
  rw [closingToken_append_of_open h, closingToken,
    List.find?_cons_of_pos (by simpa using hfinish), Option.getD_some]

theorem programTokens_length_le (tokens : List Token) :
    (programTokens tokens).length ≤ tokens.length :=
  (List.takeWhile_prefix _).length_le

theorem kind_ne_eof_of_mem {tokens : List Token} {t : Token} (h : t ∈ programTokens tokens) :
    t.kind ≠ .eof := by
  simpa using List.mem_takeWhile_imp h

/-- From a place of the program on, the program goes on as it does. -/
theorem programTokens_drop {tokens : List Token} {place : Nat}
    (h : place ≤ (programTokens tokens).length) :
    programTokens (tokens.drop place) = (programTokens tokens).drop place := by
  induction tokens generalizing place with
  | nil => rw [List.drop_nil, programTokens, List.takeWhile_nil, List.drop_nil]
  | cons t rest ih =>
    cases place with
    | zero => rfl
    | succ place =>
      by_cases ht : t.kind = .eof
      · rw [programTokens_cons_of_closing ht] at h
        cases h
      · rw [programTokens_cons_of_open ht] at h ⊢
        exact ih (Nat.le_of_succ_le_succ h)

theorem kind_ne_eof_of_drop {tokens rest : List Token} {place : Nat} {t : Token}
    (h : tokens.drop place = t :: rest) (hplace : place < (programTokens tokens).length) :
    t.kind ≠ .eof := by
  intro ht
  have hdrop := programTokens_drop (Nat.le_of_lt hplace)
  rw [h, programTokens_cons_of_closing ht] at hdrop
  exact absurd (List.drop_eq_nil_iff.1 hdrop.symm) (Nat.not_le.2 hplace)

namespace Grammar

namespace Cursor

variable {c : Cursor} {t : Token} {rest : List Token}

/-- The tokens of the program from the current one on. -/
def tokens (c : Cursor) : List Token := programTokens c.input

theorem tokens_eq_cons_iff :
    c.tokens = t :: rest ↔
      ∃ behind, c.input = t :: behind ∧ t.kind ≠ .eof ∧ programTokens behind = rest := by
  unfold tokens
  constructor
  · intro h
    cases hinput : c.input with
    | nil => rw [hinput] at h; cases h
    | cons x behind =>
      rw [hinput] at h
      by_cases hx : x.kind = .eof
      · rw [programTokens_cons_of_closing hx] at h
        cases h
      · rw [programTokens_cons_of_open hx] at h
        obtain ⟨rfl, hrest⟩ := List.cons.inj h
        exact ⟨behind, rfl, hx, hrest⟩
  · rintro ⟨behind, hinput, ht, rfl⟩
    rw [hinput, programTokens_cons_of_open ht]

theorem peek_of_cons (h : c.tokens = t :: rest) : c.peek = t := by
  obtain ⟨behind, hinput, -, -⟩ := tokens_eq_cons_iff.1 h
  rw [peek, hinput]
  rfl

/-- At the end, the next token is the closing one. -/
theorem peek_of_nil (h : c.tokens = []) : c.peek = closingToken c.input := by
  unfold tokens at h
  unfold peek closingToken
  cases hinput : c.input with
  | nil => rfl
  | cons x behind =>
    rw [hinput] at h
    have hx : x.kind = .eof := by
      by_contra hx
      rw [programTokens_cons_of_open hx] at h
      cases h
    simp [hx]

theorem isAtEnd_of_cons (h : c.tokens = t :: rest) : c.isAtEnd = false := by
  obtain ⟨-, -, ht, -⟩ := tokens_eq_cons_iff.1 h
  rw [isAtEnd, peek_of_cons h]
  exact decide_eq_false ht

theorem isAtEnd_of_nil (h : c.tokens = []) : c.isAtEnd = true := by
  rw [isAtEnd, peek_of_nil h]
  exact decide_eq_true (closingToken_kind _)

theorem check_of_cons (h : c.tokens = t :: rest) (kind : Kind) :
    c.check kind = decide (t.kind = kind) := by
  rw [check, isAtEnd_of_cons h, peek_of_cons h, Bool.not_false, Bool.true_and]

theorem check_of_nil (h : c.tokens = []) (kind : Kind) : c.check kind = false := by
  rw [check, isAtEnd_of_nil h, Bool.not_true, Bool.false_and]

theorem advance_of_cons (h : c.tokens = t :: rest) :
    c.advance = { c with input := c.input.tail } := by
  rw [advance, isAtEnd_of_cons h]
  rfl

theorem tokens_advance (h : c.tokens = t :: rest) : c.advance.tokens = rest := by
  obtain ⟨behind, hinput, -, hrest⟩ := tokens_eq_cons_iff.1 h
  rw [advance_of_cons h, tokens, hinput]
  exact hrest

@[simp] theorem advance_nextId (c : Cursor) : c.advance.nextId = c.nextId := by
  unfold advance
  split <;> rfl

@[simp] theorem advance_errors (c : Cursor) : c.advance.errors = c.errors := by
  unfold advance
  split <;> rfl

/-- One cursor comes after another; what lies between them belongs to the program. -/
structure Reaches (c d : Cursor) : Prop where
  input : ∃ passed : List Token, (∀ t ∈ passed, t.kind ≠ .eof) ∧ c.input = passed ++ d.input
  nextId : c.nextId ≤ d.nextId
  errors : c.errors <+: d.errors

end Cursor

namespace Cursor.Reaches

variable {c d e : Cursor}

theorem refl (c : Cursor) : c.Reaches c := ⟨⟨[], nofun, rfl⟩, Nat.le_refl _, List.prefix_refl _⟩

theorem trans (h : c.Reaches d) (h' : d.Reaches e) : c.Reaches e := by
  obtain ⟨passed, hpassed, hc⟩ := h.input
  obtain ⟨passed', hpassed', hd⟩ := h'.input
  refine ⟨⟨passed ++ passed', ?_, ?_⟩, Nat.le_trans h.nextId h'.nextId, h.errors.trans h'.errors⟩
  · exact List.forall_mem_append.2 ⟨hpassed, hpassed'⟩
  · rw [hc, hd, List.append_assoc]

theorem tokens (h : c.Reaches d) : d.tokens <:+ c.tokens := by
  obtain ⟨passed, hpassed, hc⟩ := h.input
  exact ⟨passed, by rw [Cursor.tokens, Cursor.tokens, hc, programTokens_append_of_open hpassed]⟩

/-- The closing token stays the same. -/
theorem closingToken (h : c.Reaches d) : closingToken d.input = Lox.closingToken c.input := by
  obtain ⟨passed, hpassed, hc⟩ := h.input
  rw [hc, closingToken_append_of_open hpassed]

/-- Errors are never taken back, so none between two cursors means none on the way. -/
theorem errors_eq (h : c.Reaches d) (h' : d.Reaches e) (he : e.errors = c.errors) :
    d.errors = c.errors ∧ e.errors = d.errors := by
  have hd : d.errors = c.errors :=
    (h.errors.eq_of_length_le (he ▸ h'.errors.length_le)).symm
  exact ⟨hd, he.trans hd.symm⟩

/-- Other ids and errors make no difference to the tokens passed. -/
theorem of_input (h : c.input = d.input) (hid : c.nextId ≤ d.nextId)
    (herrors : c.errors <+: d.errors) : c.Reaches d :=
  ⟨⟨[], nofun, h⟩, hid, herrors⟩

end Cursor.Reaches

theorem Cursor.reaches_advance (c : Cursor) : c.Reaches c.advance := by
  cases h : c.tokens with
  | nil =>
    rw [advance, isAtEnd_of_nil h]
    exact .refl c
  | cons t rest =>
    obtain ⟨behind, hinput, ht, -⟩ := tokens_eq_cons_iff.1 h
    rw [advance_of_cons h]
    exact ⟨⟨[t], List.forall_mem_singleton.2 ht, by simp [hinput]⟩, Nat.le_refl _,
      List.prefix_refl _⟩

/-! ## Recovery -/

/-- From the current token on up to the boundary, only tokens of the program are passed. -/
theorem boundary_passed (previous : Token) (ts : List Token) :
    ∃ passed : List Token, (∀ t ∈ passed, t.kind ≠ .eof) ∧
      ts = passed ++ boundary previous ts := by
  induction ts generalizing previous with
  | nil => exact ⟨[], nofun, rfl⟩
  | cons t rest ih =>
    rw [boundary]
    split
    · exact ⟨[], nofun, rfl⟩
    · next hgo =>
      obtain ⟨passed, hpassed, hrest⟩ := ih t
      refine ⟨t :: passed, List.forall_mem_cons.2 ⟨fun ht => hgo (.inl ht), hpassed⟩, ?_⟩
      rw [List.cons_append, ← hrest]

theorem resume_passed (ts : List Token) :
    ∃ passed : List Token, (∀ t ∈ passed, t.kind ≠ .eof) ∧ ts = passed ++ resume ts := by
  cases ts with
  | nil => exact ⟨[], nofun, rfl⟩
  | cons t rest =>
    rw [resume]
    split
    · exact ⟨[], nofun, rfl⟩
    · next ht =>
      obtain ⟨passed, hpassed, hrest⟩ := boundary_passed t rest
      exact ⟨t :: passed, List.forall_mem_cons.2 ⟨ht, hpassed⟩, by rw [List.cons_append, ← hrest]⟩

/-- What stands behind a program makes no difference to the boundaries in it. -/
theorem programTokens_boundary (previous : Token) (ts : List Token) :
    programTokens (boundary previous ts) = boundary previous (programTokens ts) := by
  induction ts generalizing previous with
  | nil => rfl
  | cons t rest ih =>
    by_cases ht : t.kind = .eof
    · rw [boundary, if_pos (.inl ht), programTokens_cons_of_closing ht, boundary]
    · rw [programTokens_cons_of_open ht, boundary, boundary, apply_ite programTokens,
        programTokens_cons_of_open ht, ih]

theorem programTokens_resume (ts : List Token) :
    programTokens (resume ts) = resume (programTokens ts) := by
  cases ts with
  | nil => rfl
  | cons t rest =>
    by_cases ht : t.kind = .eof
    · rw [resume, if_pos ht, programTokens_cons_of_closing ht, resume]
    · rw [programTokens_cons_of_open ht, resume, resume, if_neg ht, if_neg ht,
        programTokens_boundary]

/-- Where reading goes on after a failure, with the failure recorded. -/
theorem Cursor.reaches_resume (c : Cursor) (error : GrammarError) :
    c.Reaches { c with input := resume c.input, errors := c.errors ++ [error] } :=
  ⟨resume_passed c.input, Nat.le_refl _, List.prefix_append _ _⟩

/-! ## Steps -/

namespace Rule

variable {α β : Type} {c : Cursor}

theorem peek?_eq (c : Cursor) : peek? c = .ok (c.tokens.head?.map Token.kind) c := by
  unfold peek?
  cases h : c.tokens with
  | nil =>
    rw [Cursor.isAtEnd_of_nil h]
    rfl
  | cons t rest =>
    rw [Cursor.isAtEnd_of_cons h, Cursor.peek_of_cons h]
    rfl

theorem accept?_of_mem {kinds : List Kind} {x : Token} {rest : List Token}
    (hc : c.tokens = x :: rest) (hx : x.kind ∈ kinds) :
    accept? kinds c = .ok (some x) c.advance := by
  have hany : kinds.any c.check = true :=
    List.any_eq_true.2 ⟨x.kind, hx, by rw [Cursor.check_of_cons hc, decide_eq_true rfl]⟩
  rw [accept?, if_pos hany, Cursor.peek_of_cons hc]

theorem accept?_of_not_mem {kinds : List Kind} (h : ∀ x ∈ c.tokens.head?, x.kind ∉ kinds) :
    accept? kinds c = .ok none c := by
  refine if_neg fun hany => ?_
  obtain ⟨kind, hkind, hcheck⟩ := List.any_eq_true.1 hany
  cases hc : c.tokens with
  | nil =>
    rw [Cursor.check_of_nil hc] at hcheck
    cases hcheck
  | cons x rest =>
    rw [Cursor.check_of_cons hc] at hcheck
    rw [hc] at h
    exact h x rfl (of_decide_eq_true hcheck ▸ hkind)

/-- From a cursor on, a rule only moves on, and what it gives is as wanted. -/
def Gives (p : Rule α) (c : Cursor) (Q : α → Cursor → Prop) : Prop :=
  match p c with
  | .ok a d => c.Reaches d ∧ Q a d
  | .fail _ d => c.Reaches d

namespace Gives

variable {p : Rule α} {Q : α → Cursor → Prop}

theorem of_ok (h : p.Gives c Q) {a : α} {d : Cursor} (hp : p c = .ok a d) :
    c.Reaches d ∧ Q a d := by
  rwa [Gives, hp] at h

theorem of_fail (h : p.Gives c Q) {e : GrammarError} {d : Cursor} (hp : p c = .fail e d) :
    c.Reaches d := by
  rwa [Gives, hp] at h

theorem pure {a : α} (h : Q a c) : Gives (Pure.pure a) c Q := ⟨.refl c, h⟩

theorem bind {f : α → Rule β} {R : β → Cursor → Prop} (hp : p.Gives c Q)
    (hf : ∀ a d, c.Reaches d → Q a d → (f a).Gives d R) : Gives (p >>= f) c R := by
  cases h : p c with
  | fail e d =>
    have hb : (p >>= f) c = .fail e d := by simp only [Bind.bind, h]
    rw [Gives, hb]
    exact hp.of_fail h
  | ok a d =>
    obtain ⟨hcd, ha⟩ := hp.of_ok h
    have hb : (p >>= f) c = f a d := by simp only [Bind.bind, h]
    have hfa := hf a d hcd ha
    rw [Gives, hb]
    cases h' : f a d with
    | fail e' d' => exact hcd.trans (hfa.of_fail h')
    | ok b d' => exact ⟨hcd.trans (hfa.of_ok h').1, (hfa.of_ok h').2⟩

theorem mono {R : α → Cursor → Prop} (hp : p.Gives c Q)
    (h : ∀ a d, c.Reaches d → Q a d → R a d) : p.Gives c R := by
  unfold Gives at hp ⊢
  split
  · next a d hd =>
    rw [hd] at hp
    exact ⟨hp.1, h a d hp.1 hp.2⟩
  · next e d hd =>
    rw [hd] at hp
    exact hp

theorem map {f : α → β} {R : β → Cursor → Prop} (hp : p.Gives c Q)
    (h : ∀ a d, c.Reaches d → Q a d → R (f a) d) : Gives (f <$> p) c R :=
  hp.bind fun a d hd ha => pure (h a d hd ha)

theorem failHere (fault : GrammarFault) : Gives (Rule.failHere fault) c Q := Cursor.Reaches.refl c

theorem failAt (site : Token) (fault : GrammarFault) : Gives (Rule.failAt site fault) c Q :=
  Cursor.Reaches.refl c

theorem peek? : Gives Rule.peek? c fun k d => d = c ∧ k = c.tokens.head?.map Token.kind :=
  by rw [Gives, peek?_eq]; exact ⟨.refl c, rfl, rfl⟩

theorem record (e : GrammarError) :
    Gives (Rule.record e) c fun _ d => d.errors ≠ c.errors :=
  ⟨.of_input rfl (Nat.le_refl _) (List.prefix_append _ _), by simp⟩

theorem recordHere (fault : GrammarFault) :
    Gives (Rule.recordHere fault) c fun _ d => d.errors ≠ c.errors :=
  record _

/-- An error recorded under a condition, before the rest of a rule. -/
theorem recordIf {P : Prop} [Decidable P] {fault : GrammarFault}
    (h : ∀ d, c.Reaches d → (P → d.errors ≠ c.errors) → (¬P → d = c) → p.Gives d Q) :
    Gives (if P then Rule.recordHere fault >>= fun _ => p else p) c Q := by
  by_cases hP : P
  · rw [if_pos hP]
    exact (recordHere fault).bind fun _ d hd he => h d hd (fun _ => he) (absurd hP)
  · rw [if_neg hP]
    exact h c (.refl c) (absurd · hP) fun _ => rfl

theorem freshId : Gives Rule.freshId c fun id d =>
    id = c.nextId ∧ d.nextId = c.nextId + 1 ∧ d.tokens = c.tokens :=
  ⟨.of_input rfl (Nat.le_succ _) (List.prefix_refl _), rfl, rfl, rfl⟩

theorem accept? (kinds : List Kind) : Gives (Rule.accept? kinds) c fun t d =>
    (t = none ∧ d = c ∧ ∀ x ∈ c.tokens.head?, x.kind ∉ kinds) ∨
      ∃ x, t = some x ∧ x.kind ∈ kinds ∧ c.tokens = x :: d.tokens := by
  by_cases h : ∃ x rest, c.tokens = x :: rest ∧ x.kind ∈ kinds
  · obtain ⟨x, rest, hc, hx⟩ := h
    rw [Gives, accept?_of_mem hc hx]
    exact ⟨c.reaches_advance, .inr ⟨x, rfl, hx, by rw [hc, Cursor.tokens_advance hc]⟩⟩
  · have hnot : ∀ x ∈ c.tokens.head?, x.kind ∉ kinds := by
      intro x hx hk
      obtain ⟨rest, hc⟩ := List.head?_eq_some_iff.1 hx
      exact h ⟨x, rest, hc, hk⟩
    rw [Gives, accept?_of_not_mem hnot]
    exact ⟨.refl c, .inl ⟨rfl, rfl, hnot⟩⟩

theorem expect (kind : Kind) (fault : GrammarFault) :
    Gives (Rule.expect kind fault) c fun t d => t.kind = kind ∧ c.tokens = t :: d.tokens := by
  refine (accept? [kind]).bind ?_
  intro _ d _ h
  rcases h with ⟨rfl, -, -⟩ | ⟨x, rfl, hx, hc⟩
  · exact failHere fault
  · exact pure ⟨List.mem_singleton.1 hx, hc⟩

/-- A declaration that fails is recorded, so whatever it leaves out shows among the errors. -/
theorem recover {p : Rule Stmt} {Q : Stmt → Cursor → Prop} (hp : p.Gives c Q) :
    (Grammar.recover p).Gives c fun s d =>
      (∃ x, s = some x ∧ Q x d) ∨ (s = none ∧ d.errors ≠ c.errors) := by
  unfold Gives Grammar.recover
  cases h : p c with
  | ok s d => exact ⟨(hp.of_ok h).1, .inl ⟨s, rfl, (hp.of_ok h).2⟩⟩
  | fail e d =>
    have hd := hp.of_fail h
    refine ⟨hd.trans (d.reaches_resume e), .inr ⟨rfl, fun he => ?_⟩⟩
    have hlen := hd.errors.length_le
    rw [← he, List.length_append] at hlen
    exact absurd hlen (Nat.not_succ_le_self _)

end Gives

/-! ## Rules that record no error -/

/-- Unless it records an error, a rule gives what is wanted. -/
def Reads (p : Rule α) (c : Cursor) (Q : α → Cursor → Prop) : Prop :=
  p.Gives c fun a d => d.errors = c.errors → Q a d

/-- A rule that never records an error. -/
def Quiet (p : Rule α) : Prop := ∀ {c a d}, p c = .ok a d → d.errors = c.errors

theorem quiet_accept? (kinds : List Kind) : (accept? kinds).Quiet := by
  intro c a d h
  by_cases hx : ∃ x rest, c.tokens = x :: rest ∧ x.kind ∈ kinds
  · obtain ⟨x, rest, hc, hk⟩ := hx
    rw [accept?_of_mem hc hk] at h
    cases h
    exact c.advance_errors
  · have hnot : ∀ x ∈ c.tokens.head?, x.kind ∉ kinds := by
      intro x hhead hk
      obtain ⟨rest, hc⟩ := List.head?_eq_some_iff.1 hhead
      exact hx ⟨x, rest, hc, hk⟩
    rw [accept?_of_not_mem hnot] at h
    cases h
    rfl

theorem quiet_pure (a : α) : (Pure.pure a : Rule α).Quiet := by
  intro c a d h
  cases h
  rfl

theorem quiet_peek? : peek?.Quiet := by
  intro c a d h
  rw [peek?_eq] at h
  cases h
  rfl

theorem quiet_freshId : freshId.Quiet := by
  intro c a d h
  cases h
  rfl

theorem quiet_expect (kind : Kind) (fault : GrammarFault) : (expect kind fault).Quiet := by
  intro c a d h
  unfold expect at h
  cases ha : accept? [kind] c with
  | fail e d' => simp only [Bind.bind, ha] at h; cases h
  | ok t d' =>
    have hd := quiet_accept? [kind] ha
    cases t with
    | none => simp only [Bind.bind, ha, failHere] at h; cases h
    | some t =>
      simp only [Bind.bind, ha] at h
      cases h
      exact hd

namespace Reads

variable {p : Rule α} {f : α → Rule β} {Q : α → Cursor → Prop} {R : β → Cursor → Prop}

theorem bind (hp : p.Reads c Q) (hf : ∀ a d, (f a).Reads d fun b d' => Q a d → R b d') :
    Reads (p >>= f) c R := by
  refine Gives.bind hp fun a d hcd hq => (hf a d).mono fun b d' hdd' hr he => ?_
  obtain ⟨hd, hd'⟩ := hcd.errors_eq hdd' he
  exact hr hd' (hq hd)

theorem step (hp : p.Gives c Q) (hquiet : p.Quiet) (hf : ∀ a d, Q a d → (f a).Reads d R) :
    Reads (p >>= f) c R := by
  have hboth : p.Gives c fun a d => d.errors = c.errors ∧ Q a d := by
    unfold Gives at hp ⊢
    split
    · next a d hd =>
      rw [hd] at hp
      exact ⟨hp.1, hquiet hd, hp.2⟩
    · next e d hd =>
      rw [hd] at hp
      exact hp
  refine Gives.bind hboth fun a d _ hq => (hf a d hq.2).mono fun b d' _ hr he => ?_
  exact hr (he.trans hq.1.symm)

theorem pure {a : α} (h : Q a c) : Reads (Pure.pure a) c Q := Gives.pure fun _ => h

theorem mono {Q' : α → Cursor → Prop} (hp : p.Reads c Q) (h : ∀ a d, Q a d → Q' a d) :
    p.Reads c Q' :=
  Gives.mono hp fun a d _ hq he => h a d (hq he)

theorem map {g : α → β} (hp : p.Reads c Q) (h : ∀ a d, Q a d → R (g a) d) :
    Reads (g <$> p) c R :=
  hp.bind fun a d => pure (h a d)

theorem failHere (fault : GrammarFault) : Reads (Rule.failHere fault) c Q := Gives.failHere fault

theorem recordIf {P : Prop} [Decidable P] {fault : GrammarFault}
    (h : ∀ d, (¬P → d = c) → p.Reads d fun a d' => ¬P → Q a d') :
    Reads (if P then Rule.recordHere fault >>= fun _ => p else p) c Q := by
  refine Gives.recordIf fun d hcd herr heq => Gives.mono (h d heq) fun a d' hdd' hq he => ?_
  by_cases hP : P
  · exact absurd (hcd.errors_eq hdd' he).1 (herr hP)
  · exact hq (he.trans (heq hP ▸ rfl)) hP

/-- Without an error nothing is skipped. -/
theorem recover {p : Rule Stmt} {Q : Stmt → Cursor → Prop} (hp : p.Reads c Q) :
    (Grammar.recover p).Reads c fun s d => ∃ x, s = some x ∧ Q x d := by
  refine Gives.mono (Gives.recover hp) ?_
  intro s d _ h he
  rcases h with ⟨x, rfl, hq⟩ | ⟨rfl, hne⟩
  · exact ⟨x, rfl, hq he⟩
  · exact absurd he hne

end Reads

end Rule

end Grammar

end Lox
