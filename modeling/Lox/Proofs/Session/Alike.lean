import Lox.Proofs.Grammar.Parametric
import Lox.Proofs.Machine.Alike
import Lox.Proofs.Scoping.Alike
import Lox.Proofs.Session.History

/-!
# Sessions that are alike

Sessions are alike if their heaps are, where ids correspond that have the same on file
(`Session.SameNode`). Node ids are handed out in ascending order and nothing is on file about ids
still to come, so what is on file about the code in a heap never changes. Hence handing out ids and
filing distances for a source that is not run makes no difference (`Session.Alike.extend`), and
running a source keeps sessions alike and brings the same to light (`Session.Alike.run`).
-/

namespace Lox

open Scoping Machine

/-! ## Equal tokens -/

namespace Likeness

theorem forall₂_same (ts : List Token) : List.Forall₂ same.rel ts ts :=
  List.forall₂_same.2 fun _ _ => ⟨rfl, trivial⟩

theorem scopeError_eq {e e' : ScopeError} (h : e.Alike same e') : e' = e := by
  obtain ⟨site, fault⟩ := e
  obtain ⟨site', fault'⟩ := e'
  obtain ⟨⟨hsite, -⟩, hfault⟩ := h
  dsimp only at hsite hfault
  rw [hsite, hfault]

theorem runtimeError_eq {e e' : RuntimeError} (h : e.Alike same e') : e' = e := by
  cases h with
  | fault cause hsite => rw [hsite.1]
  | sink cause => rfl

theorem eq_of_forall₂ {α : Type} {R : α → α → Prop} (hR : ∀ {a b}, R a b → b = a)
    {l l' : List α} (h : List.Forall₂ R l l') : l' = l := by
  have heq : List.Forall₂ (· = ·) l l' := h.imp fun _ _ hab => (hR hab).symm
  rw [List.forall₂_eq_eq_eq] at heq
  exact heq.symm

end Likeness

/-- The errors of a token list do not depend on the first id. -/
theorem parse_errors_eq (tokens : List Token) (firstId firstId' : NodeId) :
    (parse firstId' tokens).errors = (parse firstId tokens).errors := by
  let C : Correspondence := ⟨.same, Eq, AnyNode, fun _ => trivial⟩
  have halike := (parse_alike C (Likeness.forall₂_same (programTokens tokens))
    (Eq.refl (closingToken tokens)) firstId firstId' trivial).2.1
  -- An error is at a token, which is the same, or at the closing token, which is the same too.
  refine Likeness.eq_of_forall₂ (fun {e e'} he => ?_) halike
  obtain ⟨site, fault⟩ := e
  obtain ⟨site', fault'⟩ := e'
  obtain ⟨hsite, hfault, -⟩ := he
  dsimp only at hsite hfault
  rw [hfault, hsite.elim (fun ht => ht.1) Eq.symm]

/-- Neither do the offences. -/
theorem parse_offences_eq (tokens : List Token) (firstId firstId' : NodeId) :
    offences (check (parse firstId' tokens).statements) =
      offences (check (parse firstId tokens).statements) :=
  Likeness.eq_of_forall₂ Likeness.scopeError_eq
    (statements_alike (Likeness.forall₂_same _) firstId firstId').offences

/-! ## Interpreters -/

namespace Interpreter

variable {N : NodeId → NodeId → Prop} {T : Likeness} {i i' : Interpreter}

variable (N T) in
/-- Interpreters that are alike, whatever they have on file. -/
structure Alike (i i' : Interpreter) : Prop where
  env : i'.env = i.env
  world : i.world.Alike N T i'.world

theorem Alike.mono {N' : NodeId → NodeId → Prop} (hN : N ≤ N') (h : i.Alike N T i') :
    i.Alike N' T i' :=
  ⟨h.env, h.world.heap.mono hN, h.world.sink, h.world.clock⟩

theorem Alike.start (h : i.Alike N T i') {s s' : Stmt} (hs : s.Alike N T s') :
    (i.start (.exec s)).Alike N T (i'.start (.exec s')) :=
  ⟨⟨h.env, .nil, h.world⟩, .exec hs⟩

/-- Alike interpreters execute alike statements with alike outcomes. -/
theorem Alike.execute (h : i.Alike N T i')
    (hd : ∀ id id', N id id' → i'.distances[id']? = i.distances[id]?) {s s' : Stmt}
    (hs : s.Alike N T s') (fuel : Nat) :
    Option.Rel (fun r r' => r.1.Alike N T r'.1 ∧ r.2.Alike N T r'.2) (i.execute fuel s)
      (i'.execute fuel s') := by
  have hrun := (h.start hs).run hd fuel
  unfold Interpreter.execute complete
  generalize run i.distances fuel (i.start (.exec s)) = x at hrun ⊢
  generalize run i'.distances fuel (i'.start (.exec s')) = x' at hrun ⊢
  cases hrun with
  | none => exact .none
  | some hr => exact .some ⟨hr.1, hr.2.env, hr.2.world⟩

/-- Alike interpreters execute alike programs with alike outcomes. -/
theorem Alike.interpret (h : i.Alike N T i')
    (hd : ∀ id id', N id id' → i'.distances[id']? = i.distances[id]?) {ss ss' : List Stmt}
    (hs : Stmt.AlikeAll N T ss ss') (fuel : Nat) :
    Option.Rel (fun r r' => Option.Rel (RuntimeError.Alike T) r.1 r'.1 ∧ r.2.Alike N T r'.2)
      (i.interpret fuel ss) (i'.interpret fuel ss') := by
  induction ss generalizing i i' ss' with
  | nil =>
    cases hs
    refine .some ⟨?_, h⟩
    rw [h.world.sink]
    cases i.world.sink.flush with
    | none => exact .none
    | some fault => exact .some (.sink fault)
  | cons s ss ih =>
    cases hs with
    | @cons _ s' _ ss' hhead hrest =>
      have hexec := h.execute hd hhead fuel
      rw [Interpreter.interpret, Interpreter.interpret]
      -- Both get the same fuel, so either both statements end or neither does.
      cases he : i.execute fuel s with
      | none =>
        cases he' : i'.execute fuel s' with
        | none => exact .none
        | some r' =>
          rw [he, he'] at hexec
          cases hexec
      | some r =>
        cases he' : i'.execute fuel s' with
        | none =>
          rw [he, he'] at hexec
          cases hexec
        | some r' =>
          obtain ⟨signal, j⟩ := r
          obtain ⟨signal', j'⟩ := r'
          rw [he, he'] at hexec
          cases hexec with
          | some hr =>
            obtain ⟨hsignal, hj⟩ := hr
            -- Executing files nothing, so ids that correspond still do.
            have hd' : ∀ id id', N id id' → j'.distances[id']? = j.distances[id]? := by
              rw [(execute_eq_some he).1, (execute_eq_some he').1]
              exact hd
            cases hsignal with
            | raised herror => exact .some ⟨.some herror, hj⟩
            | value _ => exact ih hj hd' hrest
            | done => exact ih hj hd' hrest
            | returned _ => exact ih hj hd' hrest

/-- A program that ends well goes on with what follows it. -/
theorem interpret_append {fuel : Nat} {ss rest : List Stmt}
    (h : i.interpret fuel ss = some (none, i')) :
    i.interpret fuel (ss ++ rest) = i'.interpret fuel rest := by
  induction ss generalizing i with
  | nil =>
    obtain ⟨-, rfl⟩ := Prod.mk.inj (Option.some.inj h)
    rfl
  | cons s ss ih =>
    rcases interpret_cons h with ⟨e, j, -, heq⟩ | ⟨signal, j, hexec, hne, hrest⟩
    · cases heq
    · rw [List.cons_append, interpret_next hexec hne]
      exact ih hrest

end Interpreter

/-! ## Sessions -/

namespace Session

variable {s s' r r' : Session} {source source' : String} {T : Likeness}

/-- Ids that have been handed out, with the same on file. -/
def SameNode (s s' : Session) (id id' : NodeId) : Prop :=
  id < s.nextId ∧ id' < s'.nextId ∧ s'.interpreter.distances[id']? = s.interpreter.distances[id]?

variable (T) in
/-- Sessions that are alike. Ids still to be handed out have nothing on file. -/
structure Alike (s s' : Session) : Prop where
  interpreter : s.interpreter.Alike (s.SameNode s') T s'.interpreter
  unfiled : ∀ id, s.nextId ≤ id → s.interpreter.distances[id]? = none
  unfiled' : ∀ id, s'.nextId ≤ id → s'.interpreter.distances[id]? = none
  hadError : s'.hadError = s.hadError
  hadRuntimeError : s'.hadRuntimeError = s.hadRuntimeError

/-! ### Ids that are handed out without a run -/

/-- A session has handed out more ids and has more on file, but it has run nothing. -/
structure Extends (s r : Session) : Prop where
  env : r.interpreter.env = s.interpreter.env
  world : r.interpreter.world = s.interpreter.world
  nextId : s.nextId ≤ r.nextId
  kept : ∀ id, id < s.nextId → r.interpreter.distances[id]? = s.interpreter.distances[id]?
  unfiled : ∀ id, r.nextId ≤ id → r.interpreter.distances[id]? = none

/-- What corresponds still does when more is on file. -/
theorem sameNode_mono (hn : s.nextId ≤ r.nextId)
    (hk : ∀ id, id < s.nextId → r.interpreter.distances[id]? = s.interpreter.distances[id]?)
    (hn' : s'.nextId ≤ r'.nextId)
    (hk' : ∀ id, id < s'.nextId → r'.interpreter.distances[id]? = s'.interpreter.distances[id]?) :
    s.SameNode s' ≤ r.SameNode r' := by
  intro id id' h
  obtain ⟨hid, hid', hfile⟩ := h
  refine ⟨Nat.lt_of_lt_of_le hid hn, Nat.lt_of_lt_of_le hid' hn', ?_⟩
  rw [hk id hid, hk' id' hid', hfile]

theorem Alike.extend (h : s.Alike T s') (hr : s.Extends r) (hr' : s'.Extends r')
    (herror : r'.hadError = r.hadError)
    (hruntime : r'.hadRuntimeError = r.hadRuntimeError) : r.Alike T r' := by
  have hN := sameNode_mono hr.nextId hr.kept hr'.nextId hr'.kept
  refine ⟨?_, hr.unfiled, hr'.unfiled, herror, hruntime⟩
  have hi := h.interpreter.mono hN
  exact ⟨by rw [hr.env, hr'.env, hi.env], by rw [hr.world, hr'.world]; exact hi.world⟩

theorem Extends.refl (h : ∀ id, s.nextId ≤ id → s.interpreter.distances[id]? = none) :
    s.Extends s :=
  ⟨rfl, rfl, Nat.le_refl _, fun _ _ => rfl, h⟩

/-- A session that has come to the check of a source, with the distances of the source on file. -/
def filed (s : Session) (source : String) : Session :=
  ⟨s.loaded source, s.hadError, s.hadRuntimeError, (s.parsed source).nextId⟩

theorem loaded_distances (s : Session) (source : String) :
    (s.loaded source).distances = s.interpreter.distances.file
      ((Stmt.visitsAll Context.top (s.parsed source).statements).flatMap Visit.findings) := by
  rw [← check_eq]
  rfl

theorem extends_filed (h : ∀ id, s.nextId ≤ id → s.interpreter.distances[id]? = none)
    (source : String) (hadError hadRuntimeError : Bool) :
    s.Extends ⟨s.loaded source, hadError, hadRuntimeError, (s.parsed source).nextId⟩ := by
  -- Filed are only ids that the source got, so nothing about older ids and about those to come.
  have hfresh := s.fresh_visitsAll source
  have hle := (s.fresh_visits source).1
  refine ⟨rfl, rfl, hle, fun id hid => ?_, fun id hid => ?_⟩
  · show (s.loaded source).distances[id]? = _
    rw [loaded_distances, Distances.getElem?_file_of_not_mem]
    exact fun hmem => absurd hid (Nat.not_lt.2 (hfresh.within id hmem).1)
  · show (s.loaded source).distances[id]? = _
    rw [loaded_distances, Distances.getElem?_file_of_not_mem, h id (Nat.le_trans hle hid)]
    exact fun hmem => absurd (hfresh.within id hmem).2 (Nat.not_lt.2 hid)

theorem extends_parsed (h : ∀ id, s.nextId ≤ id → s.interpreter.distances[id]? = none)
    (source : String) (hadError hadRuntimeError : Bool) :
    s.Extends ⟨s.interpreter, hadError, hadRuntimeError, (s.parsed source).nextId⟩ := by
  have hle := (s.fresh_visits source).1
  exact ⟨rfl, rfl, hle, fun _ _ => rfl, fun id hid => h id (Nat.le_trans hle hid)⟩

/-! ### Sources without static errors -/

/-- A source has no lexical, grammatical or scoping error. -/
def Valid (source : String) : Prop :=
  Lexer.errors (scan source) = [] ∧ (parse 0 (Lexer.tokens (scan source))).errors = [] ∧
    offences (check (parse 0 (Lexer.tokens (scan source))).statements) = []

instance (source : String) : Decidable (Valid source) :=
  inferInstanceAs (Decidable (_ = [] ∧ _ = [] ∧ _ = []))

theorem checks_iff : s.Checks source ↔ s.hadError = false ∧ Lexer.errors (scan source) = [] ∧
    (parse 0 (Lexer.tokens (scan source))).errors = [] := by
  rw [Checks, parsed, parse_errors_eq _ 0]

/-- Which sources a session runs depends on the session only as far as it had an error. -/
theorem accepts_iff : s.Accepts source ↔ s.hadError = false ∧ Valid source := by
  rw [Accepts, checks_iff, parsed, parse_offences_eq _ 0, Valid]
  simp only [and_assoc]

/-- What is on file about a node of a source that is run is what the visit to it says. -/
theorem Accepts.filed (ha : s.Accepts source)
    (h : ∀ id, s.nextId ≤ id → s.interpreter.distances[id]? = none) {kind : Look}
    {ctx : Context} {id : NodeId} {name : Token}
    (hv : .look kind ctx id name ∈ Stmt.visitsAll Context.top (s.parsed source).statements) :
    id < (s.parsed source).nextId ∧
      (s.loaded source).distances[id]? = ctx.hops? name.lexeme := by
  have hfresh := s.fresh_visitsAll source
  have hid := hfresh.within id (List.mem_filterMap.2 ⟨_, hv, rfl⟩)
  refine ⟨hid.2, ?_⟩
  rw [loaded_distances]
  have hoffences := ha.2
  rw [check_eq, offences_flatMap_eq_nil] at hoffences
  exact Distances.getElem?_file_visits hfresh.nodup hv (hoffences _ hv).ne_outside (h id hid.1)

/-- Ids of two sources correspond wherever the visits to them say the same. -/
theorem visitsMatch (ha : s.Accepts source) (ha' : s'.Accepts source')
    (h : ∀ id, s.nextId ≤ id → s.interpreter.distances[id]? = none)
    (h' : ∀ id, s'.nextId ≤ id → s'.interpreter.distances[id]? = none) :
    VisitsMatch ((s.filed source).SameNode (s'.filed source'))
      (Stmt.visitsAll Context.top (s.parsed source).statements)
      (Stmt.visitsAll Context.top (s'.parsed source').statements) := by
  intro kind ctx id id' name name' hv hv' hname
  obtain ⟨hid, hfile⟩ := ha.filed h hv
  obtain ⟨hid', hfile'⟩ := ha'.filed h' hv'
  refine ⟨hid, hid', ?_⟩
  show (s'.loaded source').distances[id']? = (s.loaded source).distances[id]?
  rw [hfile, hfile', hname]

/-! ### One source -/

/-- Every token of a source corresponds to itself. -/
def Reads (T : Likeness) (source : String) : Prop := ∀ t ∈ Lexer.tokens (scan source), T.rel t t

theorem Reads.parsed_alike (h : Reads T source) (s s' : Session) :
    Stmt.AlikeAll AnyNode T (s.parsed source).statements (s'.parsed source).statements :=
  statements_alike (List.forall₂_same.2 fun t ht =>
    h t ((List.takeWhile_sublist _).subset ht)) s.nextId s'.nextId

/-- The lexical and grammatical errors of a source. -/
def syntaxErrors (source : String) : List StaticError :=
  (Lexer.errors (scan source)).map .lexical ++
    (parse 0 (Lexer.tokens (scan source))).errors.map .grammar

/-- A source that does not come to the check is reported and skipped. -/
theorem run_of_syntaxErrors (h : ¬s.Checks source) (fuel : Nat) :
    s.run fuel source =
      some (⟨s.interpreter, true, s.hadRuntimeError, (s.parsed source).nextId⟩,
        ⟨syntaxErrors source, none⟩) := by
  rw [syntaxErrors, ← parse_errors_eq _ 0 s.nextId]
  exact if_pos (stops_of_not_checks h)

variable (T) in
/-- Two sources brought the same to light, with runtime errors at corresponding tokens. -/
structure SameEnd (r r' : Session × Transcript) : Prop where
  session : r.1.Alike T r'.1
  errors : r'.2.errors = r.2.errors
  runtimeError : Option.Rel (RuntimeError.Alike T) r.2.runtimeError r'.2.runtimeError

/-- The end of a program that a session has on file. -/
def conclude (s : Session) (fuel : Nat) (statements : List Stmt) :
    Option (Session × Transcript) :=
  (s.interpreter.interpret fuel statements).map fun (error, i) =>
    (⟨i, false, s.hadRuntimeError || error.isSome, s.nextId⟩, ⟨[], error⟩)

theorem run_of_accepts (ha : s.Accepts source) (fuel : Nat) :
    s.run fuel source = (s.filed source).conclude fuel (s.parsed source).statements := by
  rw [run_of_checks ha.1, if_pos ha.2]
  rfl

/-- Alike sessions come to alike ends of alike programs. -/
theorem Alike.conclude (h : s.Alike T s') {ss ss' : List Stmt}
    (hs : Stmt.AlikeAll (s.SameNode s') T ss ss') (fuel : Nat) :
    Option.Rel (SameEnd T) (s.conclude fuel ss) (s'.conclude fuel ss') := by
  have hend := h.interpreter.interpret (fun _ _ hid => hid.2.2) hs fuel
  have hd : ∀ r, s.interpreter.interpret fuel ss = some r → r.2.distances = _ :=
    fun _ => Interpreter.interpret_distances
  have hd' : ∀ r, s'.interpreter.interpret fuel ss' = some r → r.2.distances = _ :=
    fun _ => Interpreter.interpret_distances
  unfold Session.conclude
  generalize s.interpreter.interpret fuel ss = x at hend hd ⊢
  generalize s'.interpreter.interpret fuel ss' = x' at hend hd' ⊢
  cases hend with
  | none => exact .none
  | @some r r' hr =>
    obtain ⟨error, i⟩ := r
    obtain ⟨error', i'⟩ := r'
    obtain ⟨herror, hi⟩ := hr
    have hd : i.distances = s.interpreter.distances := hd _ rfl
    have hd' : i'.distances = s'.interpreter.distances := hd' _ rfl
    refine .some ⟨⟨?_, hd ▸ h.unfiled, hd' ▸ h.unfiled', rfl, ?_⟩, rfl, herror⟩
    · refine hi.mono fun id id' hid => ⟨hid.1, hid.2.1, ?_⟩
      rw [hd, hd']
      exact hid.2.2
    · show (s'.hadRuntimeError || error'.isSome) = (s.hadRuntimeError || error.isSome)
      rw [h.hadRuntimeError, herror.isSome_eq (x := error)]

/-- Alike sessions stay alike when they run a source, which brings the same to light. -/
theorem Alike.run (h : s.Alike T s') (hr : Reads T source) (fuel : Nat) :
    Option.Rel (SameEnd T) (s.run fuel source) (s'.run fuel source) := by
  have hchecks : s'.Checks source ↔ s.Checks source := by
    rw [checks_iff, checks_iff, h.hadError]
  have hoffences : offences (check (s'.parsed source).statements) =
      offences (check (s.parsed source).statements) := parse_offences_eq _ _ _
  by_cases hc : s.Checks source
  · have hc' := hchecks.2 hc
    by_cases ho : offences (check (s.parsed source).statements) = []
    · have ha : s.Accepts source := ⟨hc, ho⟩
      have ha' : s'.Accepts source := ⟨hc', hoffences.trans ho⟩
      rw [run_of_accepts ha, run_of_accepts ha']
      refine Alike.conclude ?_ ?_ fuel
      · exact h.extend (extends_filed h.unfiled source _ _) (extends_filed h.unfiled' source _ _)
          h.hadError h.hadRuntimeError
      · exact (hr.parsed_alike s s').refine (visitsMatch ha ha' h.unfiled h.unfiled') Context.top
          (List.Subset.refl _) (List.Subset.refl _)
    · rw [run_of_checks hc, run_of_checks hc', hoffences, if_neg ho, if_neg ho]
      exact .some ⟨h.extend (extends_filed h.unfiled source _ _)
        (extends_filed h.unfiled' source _ _) rfl h.hadRuntimeError, rfl, .none⟩
  · rw [run_of_syntaxErrors hc, run_of_syntaxErrors (mt hchecks.1 hc)]
    exact .some ⟨h.extend (extends_parsed h.unfiled source _ _)
      (extends_parsed h.unfiled' source _ _) rfl h.hadRuntimeError, rfl, .none⟩

/-! ## Sequences of steps -/

/-- What one does with a session: give it a source, with a bound on the steps of each statement, or
tell it to go on after an error. -/
inductive Step where
  | run (fuel : Nat) (source : String)
  | reset

/-- What a session shows after a step: all its output so far, the errors that the step brought to
light, the two flags, and the exit status. -/
structure Answer where
  output : ByteArray
  errors : List StaticError
  runtimeError : Option RuntimeError
  hadError : Bool
  hadRuntimeError : Bool
  exitCode : Nat

/-- What a session shows, after errors came to light. -/
def answer (s : Session) (t : Transcript) : Answer :=
  ⟨s.interpreter.world.sink.written, t.errors, t.runtimeError, s.hadError, s.hadRuntimeError,
    s.exitCode⟩

/-- One step; `none` if it does not end within its bound. -/
def advance (s : Session) : Step → Option (Session × Transcript)
  | .run fuel source => s.run fuel source
  | .reset => some (s.reset, ⟨[], none⟩)

/-- What a session shows in the course of steps; `none` if one of them does not end. -/
def follow (s : Session) : List Step → Option (List Answer)
  | [] => some []
  | step :: rest =>
    (s.advance step).bind fun (s, t) => (s.follow rest).map (s.answer t :: ·)

variable (T) in
/-- The same answer, with runtime errors at corresponding tokens. -/
structure Answer.Alike (a a' : Answer) : Prop where
  output : a'.output = a.output
  errors : a'.errors = a.errors
  runtimeError : Option.Rel (RuntimeError.Alike T) a.runtimeError a'.runtimeError
  hadError : a'.hadError = a.hadError
  hadRuntimeError : a'.hadRuntimeError = a.hadRuntimeError
  exitCode : a'.exitCode = a.exitCode

theorem Answer.Alike.eq {a a' : Answer} (h : a.Alike .same a') : a' = a := by
  obtain ⟨output, errors, error, hadError, hadRuntimeError, exitCode⟩ := a
  obtain ⟨output', errors', error', hadError', hadRuntimeError', exitCode'⟩ := a'
  obtain ⟨rfl, rfl, he, rfl, rfl, rfl⟩ := h
  cases he with
  | none => rfl
  | some he => rw [Likeness.runtimeError_eq he]

theorem answers_eq {x x' : Option (List Answer)}
    (h : Option.Rel (List.Forall₂ (Answer.Alike .same)) x x') : x' = x := by
  cases h with
  | none => rfl
  | some h => rw [Likeness.eq_of_forall₂ Answer.Alike.eq h]

/-- The sources among steps. -/
def Step.source? : Step → Option String
  | .run _ source => some source
  | .reset => none

theorem SameEnd.answer {r r' : Session × Transcript} (h : SameEnd T r r') :
    (r.1.answer r.2).Alike T (r'.1.answer r'.2) := by
  obtain ⟨hs, herrors, hruntime⟩ := h
  refine ⟨?_, herrors, hruntime, hs.hadError, hs.hadRuntimeError, ?_⟩
  · exact congrArg Sink.written hs.interpreter.world.sink
  · show Session.exitCode _ = Session.exitCode _
    rw [Session.exitCode, Session.exitCode, hs.hadError, hs.hadRuntimeError]

theorem Alike.reset (h : s.Alike T s') : s.reset.Alike T s'.reset :=
  h.extend ⟨rfl, rfl, Nat.le_refl _, fun _ _ => rfl, h.unfiled⟩
    ⟨rfl, rfl, Nat.le_refl _, fun _ _ => rfl, h.unfiled'⟩ rfl h.hadRuntimeError

theorem Alike.advance (h : s.Alike T s') {step : Step}
    (hr : ∀ source ∈ step.source?, Reads T source) :
    Option.Rel (SameEnd T) (s.advance step) (s'.advance step) := by
  cases step with
  | run fuel source => exact h.run (hr source rfl) fuel
  | reset => exact .some ⟨h.reset, rfl, .none⟩

/-- From two ends that are alike, the same steps go alike. -/
theorem follow_of_sameEnd {x x' : Option (Session × Transcript)} (h : Option.Rel (SameEnd T) x x')
    {rest : List Step}
    (hrest : ∀ s s' : Session, s.Alike T s' →
      Option.Rel (List.Forall₂ (Answer.Alike T)) (s.follow rest) (s'.follow rest)) :
    Option.Rel (List.Forall₂ (Answer.Alike T))
      (x.bind fun (s, t) => (s.follow rest).map (s.answer t :: ·))
      (x'.bind fun (s, t) => (s.follow rest).map (s.answer t :: ·)) := by
  cases h with
  | none => exact .none
  | @some r r' hr =>
    obtain ⟨s, t⟩ := r
    obtain ⟨s', t'⟩ := r'
    have hgo := hrest s s' hr.session
    simp only [Option.bind_some]
    generalize s.follow rest = y at hgo ⊢
    generalize s'.follow rest = y' at hgo ⊢
    cases hgo with
    | none => exact .none
    | some hall => exact .some (.cons hr.answer hall)

/-- Alike sessions answer alike, step by step. -/
theorem Alike.follow (h : s.Alike T s') (steps : List Step)
    (hr : ∀ source ∈ steps.filterMap Step.source?, Reads T source) :
    Option.Rel (List.Forall₂ (Answer.Alike T)) (s.follow steps) (s'.follow steps) := by
  induction steps generalizing s s' with
  | nil => exact .some .nil
  | cons step rest ih =>
    refine follow_of_sameEnd (h.advance fun source hs => hr source ?_)
      fun s s' hss => ih hss fun source hs => hr source ?_
    · exact List.mem_filterMap.2 ⟨step, List.mem_cons_self, hs⟩
    · obtain ⟨step', hmem, hsource⟩ := List.mem_filterMap.1 hs
      exact List.mem_filterMap.2 ⟨step', List.mem_cons_of_mem _ hmem, hsource⟩

/-! ## Sessions that can be reached -/

/-- A session that has come to where it is through sources and resets, and the sources. -/
inductive Reached : Session → List String → Prop
  | new (sink : Sink) (clock : Nat → Float) : Reached (new sink clock) []
  | run {s s' : Session} {earlier : List String} {fuel : Nat} {source : String} {t : Transcript} :
      Reached s earlier → s.run fuel source = some (s', t) → Reached s' (earlier ++ [source])
  | reset {s : Session} {earlier : List String} : Reached s earlier → Reached s.reset earlier

theorem Alike.new (sink : Sink) (clock : Nat → Float) :
    (Session.new sink clock).Alike T (Session.new sink clock) := by
  have hbuiltins : Bindings.Alike (Value.Alike ((Session.new sink clock).SameNode
      (Session.new sink clock)) T) Interpreter.builtins Interpreter.builtins :=
    .cons ⟨rfl, .builtin .clock⟩ .nil
  have hempty : Heap.empty.Alike ((Session.new sink clock).SameNode (Session.new sink clock)) T
      Heap.empty := ⟨⟨rfl, fun _ => .none⟩, ⟨rfl, fun _ => .none⟩, rfl⟩
  refine ⟨⟨rfl, (hempty.nest [] hbuiltins).2, rfl, rfl⟩, ?_, ?_, rfl, rfl⟩
  · exact fun id _ => Std.TreeMap.getElem?_emptyc (a := id)
  · exact fun id _ => Std.TreeMap.getElem?_emptyc (a := id)

/-- A session is alike to itself, for every correspondence that keeps the tokens of its sources. -/
theorem Reached.alike {earlier : List String} (h : s.Reached earlier)
    (hr : ∀ source ∈ earlier, Reads T source) : s.Alike T s := by
  induction h with
  | new sink clock => exact .new sink clock
  | @run s s' earlier fuel source t _ hrun ih =>
    have hs := ih fun source hs => hr source (List.mem_append_left _ hs)
    have hend := hs.run (hr source (List.mem_append_right _ List.mem_cons_self)) fuel
    rw [hrun] at hend
    cases hend with
    | some hend => exact hend.session
  | reset _ ih => exact (ih hr).reset

end Session

end Lox
