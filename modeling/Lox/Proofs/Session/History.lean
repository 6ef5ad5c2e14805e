import Lox.Session
import Lox.Proofs.Grammar.Trees
import Lox.Proofs.Machine.Preservation
import Lox.Proofs.Scoping.Distances
import Lox.Proofs.Scoping.Keywords

/-!
# Sessions and what has been visited

A session goes through sources one after another. Its history is the list of all visits that the
check of scopes has made (`Session.History`); the sources that were run are those without an
offence. A function declared by one source may be called by a later one, so what holds while a
source runs has to hold with respect to the whole history.

Main statements: between two sources a session is in order (`Session.History.sound`), and at
every moment of a run the machine is (`Session.Sound.passes`).
-/

namespace Lox

open Scoping Machine

/-! ## The visits on record -/

namespace Scoping

/-- A visit at which nothing is wrong, in a program that was read from a source. -/
structure Visit.Regular (v : Visit) : Prop where
  clean : v.Clean
  spelled : v.Spelled
  anchored : v.Anchored

/-- Wherever `this` may stand, it is ready. -/
theorem Visit.Regular.innermost?_this {ctx : Context} {id : NodeId} {name : Token}
    (h : (Visit.look .this ctx id name).Regular) : ctx.innermost? name ≠ some false := by
  have hname : name.lexeme = "this" := Kind.eq_this_of_ofWord (h.spelled _ rfl)
  intro hfalse
  rw [Context.innermost?, hname] at hfalse
  obtain ⟨scope, hscope, hlook⟩ := Option.bind_eq_some_iff.1 hfalse
  exact h.anchored.ready scope (List.mem_of_mem_head? hscope) hlook

/-- A visit is in a list, or is a read in a context that says the same about its name. -/
def OnRecord (vs : List Visit) : Visit → Prop
  | .look .read ctx id name =>
    ∃ ctx' : Context, ctx'.view name.lexeme = ctx.view name.lexeme ∧
      Visit.look .read ctx' id name ∈ vs
  | v => v ∈ vs

variable {vs ws : List Visit}

theorem OnRecord.of_mem {v : Visit} (h : v ∈ vs) : OnRecord vs v := by
  unfold OnRecord
  split
  · next ctx id name => exact ⟨ctx, rfl, h⟩
  · exact h

theorem OnRecord.mono (hsub : vs ⊆ ws) {v : Visit} (h : OnRecord vs v) : OnRecord ws v := by
  unfold OnRecord at h ⊢
  split at h
  · obtain ⟨ctx', hview, hmem⟩ := h
    exact ⟨ctx', hview, hsub hmem⟩
  · exact hsub h

theorem OnRecord.record (hclean : ∀ v ∈ vs, v.Clean) : Record (OnRecord vs) where
  clean := by
    intro v h
    unfold OnRecord at h
    split at h
    · obtain ⟨ctx', hview, hmem⟩ := h
      refine Visit.clean_read ?_
      have hready := (hclean _ hmem).read
      rwa [Context.innermost?_eq_view, hview, ← Context.innermost?_eq_view] at hready
    · exact hclean v h
  read := by
    intro ctx ctx' id name hview h
    obtain ⟨ctx'', hview', hmem⟩ := h
    exact ⟨ctx'', hview'.trans hview, hmem⟩

end Scoping

/-! ## Larger records -/

section Mono

variable {V W : Visit → Prop} (hVW : ∀ v, V v → W v) {h : Heap}
include hVW

theorem Closure.Fits.mono {code : Closure} (hc : code.Fits V h) : code.Fits W h := by
  obtain ⟨ctx, kind, hs, hm, hf⟩ := hc
  exact ⟨ctx, kind, hs, hm, hf.mono hVW⟩

theorem Class.Fits.mono {k : Class} (hk : k.Fits V h) : k.Fits W h := by
  intro layer hl name f hget
  obtain ⟨ctx, kind, hs, hm, hf⟩ := hk layer hl name f hget
  exact ⟨ctx, kind, hs, hm, hf.mono hVW⟩

theorem Value.Fits.mono {v : Value} (hv : v.Fits V h) : v.Fits W h := by
  cases v with
  | function id code => exact Closure.Fits.mono hVW hv
  | class_ k => exact Class.Fits.mono hVW hv
  | object o => exact Class.Fits.mono hVW hv
  | nil | bool | number | text | builtin => trivial

theorem Heap.Fits.mono (hf : h.Fits V) : h.Fits W :=
  ⟨hf.nonempty, fun hr => (hf.scopes hr).mono hVW, fun hr => (hf.fields hr).mono hVW⟩

end Mono

/-! ## Interpreters -/

namespace Interpreter

variable {V : Visit → Prop}

/-- An interpreter at rest is at the outermost level, with its heap in order. -/
structure Rests (V : Visit → Prop) (i : Interpreter) : Prop where
  heap : i.world.heap.Fits V
  env : i.env = globalEnv

/-- The names of a new interpreter have one value. -/
theorem eq_of_read_new {sink : Sink} {clock : Nat → Float} {scope : ScopeId} {n : String}
    {v : Value} (h : (Interpreter.new sink clock).world.heap.read scope n = some v) :
    v = .builtin .clock := by
  have hread : (Heap.empty.newScope builtins).2.read scope n = some v := h
  rw [Heap.read_newScope] at hread
  split at hread
  · exact (Bindings.eq_of_get?_single hread).2
  · cases hread

/-- The moments through which the execution of statements passes, one statement after another up
to the first error. -/
inductive Passes : Interpreter → List Stmt → Config → Prop
  | here {i : Interpreter} {s : Stmt} {rest : List Stmt} (n : Nat) :
      Passes i (s :: rest) ((step i.distances)^[n] (i.start (.exec s)))
  | later {i i' : Interpreter} {s : Stmt} {rest : List Stmt} {fuel : Nat} {signal : Signal}
      {c : Config} :
      i.execute fuel s = some (signal, i') → (∀ e, signal ≠ .raised e) → Passes i' rest c →
      Passes i (s :: rest) c

theorem Rests.start {i : Interpreter} (hi : i.Rests V) {ctx : Context} (hctx : ctx.scopes = [])
    {s : Stmt} (hs : s.Fits V ctx) : (i.start (.exec s)).Fits V := by
  refine ⟨ctx, ⟨hi.heap, ?_, ?_, ?_⟩, hs⟩
  · rw [hctx]
    show Heap.Realizes _ [] i.env
    rw [hi.env]
    exact ⟨.globals, trivial, nofun⟩
  · rw [hctx]
    exact nofun
  · show StackFits V _ _ _ i.env []
    rw [hi.env]
    exact .nil

/-- Where a run comes to its end. -/
theorem complete_eq_some {d : Distances} {fuel : Nat} {c : Config} {signal : Signal}
    {i : Interpreter} (h : complete d fuel c = some (signal, i)) :
    i.distances = d ∧ ∃ n c', (step d)^[n] c = c' ∧
      c'.result? = some signal ∧ i.env = c'.env ∧ i.world = c'.world := by
  obtain ⟨⟨sig, c'⟩, hrun, heq⟩ := Option.map_eq_some_iff.1 h
  cases heq
  obtain ⟨n, -, hc, hres⟩ := run_eq_some_iff.1 hrun
  exact ⟨rfl, n, c', hc, hres, rfl, rfl⟩

/-- Where the execution of a statement comes to its end. -/
theorem execute_eq_some {i i' : Interpreter} {fuel : Nat} {s : Stmt} {signal : Signal}
    (h : i.execute fuel s = some (signal, i')) :
    i'.distances = i.distances ∧ ∃ n c, (step i.distances)^[n] (i.start (.exec s)) = c ∧
      c.result? = some signal ∧ i'.env = c.env ∧ i'.world = c.world :=
  complete_eq_some h

/-- A program ends with the error of its first statement, or as the rest of it does. -/
theorem interpret_cons {i : Interpreter} {fuel : Nat} {st : Stmt} {rest : List Stmt}
    {r : Option RuntimeError × Interpreter} (h : i.interpret fuel (st :: rest) = some r) :
    (∃ e i', i.execute fuel st = some (.raised e, i') ∧ r = (some e, i')) ∨
      ∃ signal i', i.execute fuel st = some (signal, i') ∧ (∀ e, signal ≠ .raised e) ∧
        i'.interpret fuel rest = some r := by
  rw [interpret] at h
  split at h
  · cases h
  · next e i' hexec => exact .inl ⟨e, i', hexec, (Option.some.inj h).symm⟩
  · next signal i' hne hexec => exact .inr ⟨signal, i', hexec, hne, h⟩

/-- What the execution of every statement keeps, a run of a program keeps. -/
theorem interpret_keeps {P : Interpreter → Prop}
    (hexec : ∀ {i i' : Interpreter} {fuel st signal}, P i →
      i.execute fuel st = some (signal, i') → P i')
    {i : Interpreter} {fuel : Nat} {ss : List Stmt} {r : Option RuntimeError × Interpreter}
    (hi : P i) (h : i.interpret fuel ss = some r) : P r.2 := by
  induction ss generalizing i with
  | nil =>
    cases h
    exact hi
  | cons s rest ih =>
    rcases interpret_cons h with ⟨e, i', he, rfl⟩ | ⟨signal, i', he, -, hrest⟩
    · exact hexec hi he
    · exact ih (hexec hi he) hrest

/-- A run files nothing. -/
theorem interpret_distances {i : Interpreter} {fuel : Nat} {ss : List Stmt}
    {r : Option RuntimeError × Interpreter} (h : i.interpret fuel ss = some r) :
    r.2.distances = i.distances := by
  refine interpret_keeps (P := fun j => j.distances = i.distances) ?_ rfl h
  intro j j' fuel s signal hj he
  exact (execute_eq_some he).1.trans hj

theorem Rests.execute (hV : Record V) {i i' : Interpreter} (hi : i.Rests V) {ctx : Context}
    (hctx : ctx.scopes = []) {s : Stmt} (hs : s.Fits V ctx) {fuel : Nat} {signal : Signal}
    (h : i.execute fuel s = some (signal, i')) : i'.Rests V := by
  obtain ⟨-, n, c, hc, hres, henv, hworld⟩ := execute_eq_some h
  obtain ⟨hheap, hend⟩ := (hc ▸ (hi.start hctx hs).iterate hV n).ended hres
  exact ⟨hworld ▸ hheap, henv.trans hend⟩

theorem Rests.interpret (hV : Record V) {i i' : Interpreter} (hi : i.Rests V) {ctx : Context}
    (hctx : ctx.scopes = []) {ss : List Stmt} (hs : Stmt.FitAll V ctx ss) {fuel : Nat}
    {error : Option RuntimeError} (h : i.interpret fuel ss = some (error, i')) : i'.Rests V := by
  induction ss generalizing i ctx with
  | nil =>
    cases h
    exact hi
  | cons s rest ih =>
    obtain ⟨hhead, hrest⟩ := Stmt.fitAll_cons.1 hs
    rcases interpret_cons h with ⟨e, j, he, heq⟩ | ⟨signal, j, he, -, hinterpret⟩
    · cases heq
      exact hi.execute hV hctx hhead he
    · exact ih (hi.execute hV hctx hhead he) (Context.defineAll_scopes_nil hctx s.declared) hrest
        hinterpret

theorem Rests.passes (hV : Record V) {i : Interpreter} (hi : i.Rests V) {ctx : Context}
    (hctx : ctx.scopes = []) {ss : List Stmt} (hs : Stmt.FitAll V ctx ss) {c : Config}
    (h : i.Passes ss c) : c.Fits V := by
  induction h generalizing ctx with
  | here n => exact (hi.start hctx (Stmt.fitAll_cons.1 hs).1).iterate hV n
  | @later i i' s rest fuel signal c he hne hp ih =>
    obtain ⟨hhead, hrest⟩ := Stmt.fitAll_cons.1 hs
    exact ih (hi.execute hV hctx hhead he) (Context.defineAll_scopes_nil hctx s.declared) hrest

section

variable {i i' : Interpreter} {fuel fuel' : Nat}

theorem execute_mono {st : Stmt} {r : Signal × Interpreter} (h : i.execute fuel st = some r)
    (hle : fuel ≤ fuel') : i.execute fuel' st = some r := by
  obtain ⟨r', hrun, rfl⟩ := Option.map_eq_some_iff.1 h
  exact Option.map_eq_some_iff.2 ⟨r', run_mono hrun hle, rfl⟩

theorem interpret_raised {st : Stmt} {rest : List Stmt} {e : RuntimeError}
    (h : i.execute fuel st = some (.raised e, i')) :
    i.interpret fuel (st :: rest) = some (some e, i') := by
  rw [interpret, h]

theorem interpret_next {st : Stmt} {rest : List Stmt} {signal : Signal}
    (h : i.execute fuel st = some (signal, i')) (hne : ∀ e, signal ≠ .raised e) :
    i.interpret fuel (st :: rest) = i'.interpret fuel rest := by
  rw [interpret, h]
  cases signal with
  | raised e => exact absurd rfl (hne e)
  | value | done | returned => rfl

/-- More fuel makes no difference. -/
theorem interpret_mono {ss : List Stmt} {r : Option RuntimeError × Interpreter}
    (h : i.interpret fuel ss = some r) (hle : fuel ≤ fuel') : i.interpret fuel' ss = some r := by
  induction ss generalizing i with
  | nil => exact h
  | cons st rest ih =>
    rcases interpret_cons h with ⟨e, i', hexec, rfl⟩ | ⟨signal, i', hexec, hne, hrest⟩
    · exact interpret_raised (execute_mono hexec hle)
    · rw [interpret_next (execute_mono hexec hle) hne]
      exact ih hrest

end

end Interpreter

/-! ## Sessions -/

namespace Session

/-- What a session reads in a source. -/
def parsed (s : Session) (source : String) : Parsed :=
  parse s.nextId (Lexer.tokens (scan source))

/-- A session comes to the check of a source: it has no error from before, and neither the
characters nor the tokens of the source are wrong. -/
def Checks (s : Session) (source : String) : Prop :=
  s.hadError = false ∧ Lexer.errors (scan source) = [] ∧ (s.parsed source).errors = []

instance (s : Session) (source : String) : Decidable (s.Checks source) :=
  inferInstanceAs (Decidable (_ ∧ _ = [] ∧ _ = []))

/-- A session runs a source: it comes to the check, which finds no offence. -/
def Accepts (s : Session) (source : String) : Prop :=
  s.Checks source ∧ offences (check (s.parsed source).statements) = []

instance (s : Session) (source : String) : Decidable (s.Accepts source) :=
  inferInstanceAs (Decidable (_ ∧ _ = []))

/-- The visits that the check makes in a source. -/
def visits (s : Session) (source : String) : List Visit :=
  if s.Checks source then Stmt.visitsAll Context.top (s.parsed source).statements else []

/-- The interpreter with the distances of a source on file. -/
def loaded (s : Session) (source : String) : Interpreter :=
  s.interpreter.learn (check (s.parsed source).statements)

/-- The moments through which a session passes while it runs a source. -/
def Passes (s : Session) (source : String) (c : Config) : Prop :=
  (s.loaded source).Passes (s.parsed source).statements c

/-- A session that has come to where it is through sources and resets, and the visits made on
the way. -/
inductive History : Session → List Visit → Prop
  | new (sink : Sink) (clock : Nat → Float) : History (new sink clock) []
  | run {s s' : Session} {vs : List Visit} {fuel : Nat} {source : String} {t : Transcript} :
      History s vs → s.run fuel source = some (s', t) → History s' (vs ++ s.visits source)
  | reset {s : Session} {vs : List Visit} : History s vs → History s.reset vs

variable {s s' : Session} {vs ran : List Visit} {source : String} {fuel : Nat}

theorem check_eq (ss : List Stmt) :
    check ss = (Stmt.visitsAll Context.top ss).flatMap Visit.findings :=
  Stmt.findingsAll_eq Context.top ss

theorem visits_of_checks (h : s.Checks source) :
    s.visits source = Stmt.visitsAll Context.top (s.parsed source).statements :=
  if_pos h

/-- A session does not come to the check after an error from before or in the source. -/
theorem stops_of_not_checks (h : ¬s.Checks source) :
    (s.hadError || !((Lexer.errors (scan source)).map StaticError.lexical ++
      (s.parsed source).errors.map StaticError.grammar).isEmpty)
        = true := by
  rw [Bool.or_eq_true, Bool.not_eq_true', List.isEmpty_eq_false_iff]
  by_contra hno
  rw [not_or, Bool.not_eq_true, not_not, List.append_eq_nil_iff, List.map_eq_nil_iff,
    List.map_eq_nil_iff] at hno
  exact h hno

theorem run_of_not_checks (h : ¬s.Checks source) (fuel : Nat) :
    ∃ errors, s.run fuel source =
      some (⟨s.interpreter, true, s.hadRuntimeError, (s.parsed source).nextId⟩,
        ⟨errors, none⟩) := by
  refine ⟨_, if_pos ?_⟩
  exact stops_of_not_checks h

theorem run_of_checks (h : s.Checks source) :
    s.run fuel source =
      if offences (check (s.parsed source).statements) = [] then
        ((s.loaded source).interpret fuel (s.parsed source).statements).map fun (error, i) =>
          (⟨i, false, s.hadRuntimeError || error.isSome, (s.parsed source).nextId⟩, ⟨[], error⟩)
      else some (⟨s.loaded source, true, s.hadRuntimeError, (s.parsed source).nextId⟩,
        ⟨(offences (check (s.parsed source).statements)).map .scoping, none⟩) := by
  obtain ⟨herror, hlexical, hgrammar⟩ := h
  unfold parsed at hgrammar
  simp only [Session.run, herror, hlexical, hgrammar, List.map_nil, List.append_nil,
    List.isEmpty_nil, Bool.not_true, Bool.or_false, Bool.false_eq_true, if_false]
  by_cases ho : offences (check (s.parsed source).statements) = []
  · rw [if_pos ho]
    unfold parsed at ho
    simp only [ho, List.map_nil, List.isEmpty_nil, Bool.not_true, Bool.false_eq_true, if_false]
    rfl
  · rw [if_neg ho]
    exact if_pos (by simpa [parsed] using ho)

/-- What there is after a source that is run. -/
theorem Accepts.run_eq_some (ha : s.Accepts source) {t : Transcript}
    (hrun : s.run fuel source = some (s', t)) :
    ∃ error i, (s.loaded source).interpret fuel (s.parsed source).statements = some (error, i) ∧
      s' = ⟨i, false, s.hadRuntimeError || error.isSome, (s.parsed source).nextId⟩ ∧
      t = ⟨[], error⟩ := by
  rw [run_of_checks ha.1, if_pos ha.2] at hrun
  obtain ⟨⟨error, i⟩, hi, hend⟩ := Option.map_eq_some_iff.1 hrun
  obtain ⟨rfl, rfl⟩ := Prod.mk.inj hend
  exact ⟨error, i, hi, rfl, rfl⟩

/-- A source that is not run leaves nothing but what the check has filed for it. -/
theorem run_eq_some_of_not_accepts (ha : ¬s.Accepts source) {t : Transcript}
    (hrun : s.run fuel source = some (s', t)) :
    s' = ⟨s.interpreter.learn ((s.visits source).flatMap Visit.findings), true,
        s.hadRuntimeError, (s.parsed source).nextId⟩ ∧ t.runtimeError = none := by
  by_cases hc : s.Checks source
  · rw [run_of_checks hc, if_neg fun ho => ha ⟨hc, ho⟩] at hrun
    obtain ⟨rfl, rfl⟩ := Prod.mk.inj (Option.some.inj hrun)
    rw [visits_of_checks hc, ← check_eq]
    exact ⟨rfl, rfl⟩
  · obtain ⟨errors, hskip⟩ := run_of_not_checks hc fuel
    rw [hskip] at hrun
    obtain ⟨rfl, rfl⟩ := Prod.mk.inj (Option.some.inj hrun)
    rw [visits, if_neg hc]
    exact ⟨rfl, rfl⟩

/-- A session in order: `vs` are the visits made so far and `ran` those in sources that were run.
No two visits share an id, and ids that are still to be handed out have nothing on file. -/
structure Sound (s : Session) (vs ran : List Visit) : Prop where
  fresh : Fresh 0 s.nextId (vs.filterMap Visit.id?)
  unfiled : ∀ id, s.nextId ≤ id → s.interpreter.distances[id]? = none
  subset : ran ⊆ vs
  regular : ∀ v ∈ ran, v.Regular
  filed : ∀ {kind ctx id name}, Visit.look kind ctx id name ∈ ran →
    s.interpreter.distances[id]? = ctx.hops? name.lexeme
  rests : s.interpreter.Rests (OnRecord ran)

/-- The ids of a source are new, whether or not the session comes to its check. -/
theorem fresh_visitsAll (s : Session) (source : String) :
    Fresh s.nextId (s.parsed source).nextId
      ((Stmt.visitsAll Context.top (s.parsed source).statements).filterMap Visit.id?) := by
  obtain ⟨d, hd, -, hread⟩ := parse_read s.nextId (Lexer.tokens (scan source))
  rw [Stmt.filterMap_id?_visitsAll, parsed, ← hd]
  exact hread.built.fresh

/-- So are the ids that the check comes to. -/
theorem fresh_visits (s : Session) (source : String) :
    s.nextId ≤ (s.parsed source).nextId ∧
      Fresh s.nextId (s.parsed source).nextId ((s.visits source).filterMap Visit.id?) := by
  obtain ⟨d, hd, hle, -⟩ := parse_read s.nextId (Lexer.tokens (scan source))
  constructor
  · rw [parsed, ← hd]
    exact hle
  · unfold visits
    split
    · exact s.fresh_visitsAll source
    · exact .nil

/-- The names in a source are spelled as their kinds say. -/
theorem spelled_mentions (s : Session) (source : String) :
    ∀ m ∈ Stmt.mentionsAll (s.parsed source).statements, m.Spelled := by
  obtain ⟨d, -, -, hread⟩ := parse_read s.nextId (Lexer.tokens (scan source))
  intro m hm
  obtain ⟨hk, ht⟩ := hread.built.named m hm
  have hmem : m.token ∈ Lexer.tokens (scan source) := (List.takeWhile_sublist _).subset ht
  rw [← Stmt.filterMap_visitsAll Context.top] at hm
  obtain ⟨v, -, hv⟩ := List.mem_filterMap.1 hm
  exact (scan_spelled source m.token hmem (hk ▸ Visit.isWord_mention? hv)).trans hk

/-- A source that is run has only regular visits. -/
theorem Accepts.regular (ha : s.Accepts source) : ∀ v ∈ s.visits source, v.Regular := by
  obtain ⟨hchecks, hoffences⟩ := ha
  obtain ⟨d, -, -, hread⟩ := parse_read s.nextId (Lexer.tokens (scan source))
  have hspelled := s.spelled_mentions source
  rw [visits_of_checks hchecks]
  intro v hv
  refine ⟨?_, fun m hm => hspelled m ?_, ?_⟩
  · rw [check_eq, offences_flatMap_eq_nil] at hoffences
    exact hoffences v hv
  · rw [← Stmt.filterMap_visitsAll Context.top]
    exact List.mem_filterMap.2 ⟨v, hv, hm⟩
  · exact Stmt.anchored_visitsAll .top _ hread.plain hspelled v hv

theorem rests_new (sink : Sink) (clock : Nat → Float) (V : Visit → Prop) :
    (Interpreter.new sink clock).Rests V := by
  refine ⟨⟨Nat.zero_lt_one, ?_, ?_⟩, rfl⟩
  · intro scope n v hr
    obtain rfl := Interpreter.eq_of_read_new hr
    trivial
  · intro o n v hr
    cases hr

namespace Sound

theorem new (sink : Sink) (clock : Nat → Float) : (Session.new sink clock).Sound [] [] where
  fresh := .nil
  unfiled id _ := Std.TreeMap.getElem?_emptyc (a := id)
  subset := List.Subset.refl []
  regular _ hv := absurd hv List.not_mem_nil
  filed hv := absurd hv List.not_mem_nil
  rests := rests_new sink clock _

/-- What is on file about earlier sources stays as it is. -/
theorem filed_before (h : s.Sound vs ran) {kind : Look} {ctx : Context} {id : NodeId}
    {name : Token} (hv : Visit.look kind ctx id name ∈ ran) :
    (s.interpreter.distances.file ((s.visits source).flatMap Visit.findings))[id]? =
      ctx.hops? name.lexeme := by
  rw [Distances.getElem?_file_of_not_mem, h.filed hv]
  intro hmem
  have hid : id ∈ vs.filterMap Visit.id? := List.mem_filterMap.2 ⟨_, h.subset hv, rfl⟩
  have hlt := (h.fresh.within id hid).2
  exact absurd hlt (Nat.not_lt.2 ((s.fresh_visits source).2.within id hmem).1)

/-- The check of a source files nothing under ids that are still to be handed out. -/
theorem unfiled_after (h : s.Sound vs ran) (id : NodeId)
    (hid : (s.parsed source).nextId ≤ id) :
    (s.interpreter.distances.file ((s.visits source).flatMap Visit.findings))[id]? = none := by
  rw [Distances.getElem?_file_of_not_mem,
    h.unfiled id (Nat.le_trans (s.fresh_visits source).1 hid)]
  intro hmem
  exact absurd ((s.fresh_visits source).2.within id hmem).2 (Nat.not_lt.2 hid)

theorem fresh_append (h : s.Sound vs ran) (source : String) :
    Fresh 0 (s.parsed source).nextId ((vs ++ s.visits source).filterMap Visit.id?) := by
  rw [List.filterMap_append]
  exact h.fresh.append (s.fresh_visits source).2 (Nat.zero_le _) (s.fresh_visits source).1

/-- A source that is not run leaves the session in order, whatever has been filed for it. -/
theorem skip (h : s.Sound vs ran) {i : Interpreter} (hadError hadRuntimeError : Bool)
    (hworld : i.world = s.interpreter.world) (henv : i.env = s.interpreter.env)
    (hfile : i.distances =
      s.interpreter.distances.file ((s.visits source).flatMap Visit.findings)) :
    Sound ⟨i, hadError, hadRuntimeError, (s.parsed source).nextId⟩ (vs ++ s.visits source)
      ran where
  fresh := h.fresh_append source
  unfiled id hid := hfile ▸ h.unfiled_after id hid
  subset := fun _ hv => List.mem_append_left _ (h.subset hv)
  regular := h.regular
  filed hv := hfile ▸ h.filed_before hv
  rests := ⟨hworld ▸ h.rests.heap, henv.trans h.rests.env⟩

/-- A session ready to run a source: the visits to it are on record, and so is everything that
its statements ask for. -/
theorem load (h : s.Sound vs ran) (ha : s.Accepts source) :
    Sound ⟨s.loaded source, false, s.hadRuntimeError, (s.parsed source).nextId⟩
      (vs ++ s.visits source) (ran ++ s.visits source) := by
  have hfile : (s.loaded source).distances =
      s.interpreter.distances.file ((s.visits source).flatMap Visit.findings) := by
    rw [visits_of_checks ha.1, ← check_eq]
    rfl
  refine ⟨h.fresh_append source, fun id hid => hfile ▸ h.unfiled_after id hid, ?_, ?_, ?_, ?_⟩
  · exact List.append_subset.2 ⟨fun v hv => List.mem_append_left _ (h.subset hv),
      List.subset_append_right _ _⟩
  · exact List.forall_mem_append.2 ⟨h.regular, ha.regular⟩
  · intro kind ctx id name hv
    rw [hfile]
    rcases List.mem_append.1 hv with hv | hv
    · exact h.filed_before hv
    · have hfresh := (s.fresh_visits source).2
      have hid : id ∈ (s.visits source).filterMap Visit.id? :=
        List.mem_filterMap.2 ⟨_, hv, rfl⟩
      exact Distances.getElem?_file_visits hfresh.nodup hv (ha.regular _ hv).clean.ne_outside
        (h.unfiled id (hfresh.within id hid).1)
  · exact ⟨h.rests.heap.mono fun v => OnRecord.mono (List.subset_append_left _ _), h.rests.env⟩

theorem record (h : s.Sound vs ran) : Record (OnRecord ran) :=
  OnRecord.record fun v hv => (h.regular v hv).clean

/-- Everything that the statements of a source ask for is on record. -/
theorem fitAll (hc : s.Checks source) (ran : List Visit) :
    Stmt.FitAll (OnRecord (ran ++ s.visits source)) Context.top (s.parsed source).statements := by
  obtain ⟨d, -, -, hread⟩ := parse_read s.nextId (Lexer.tokens (scan source))
  refine ⟨hread.plain, fun v hv => ?_⟩
  rw [visits_of_checks hc]
  exact OnRecord.of_mem (List.mem_append_right _ hv)

/-- The machine is in order at every moment of a run. -/
theorem passes (h : s.Sound vs ran) (ha : s.Accepts source) {c : Config}
    (hp : s.Passes source c) : c.Fits (OnRecord (ran ++ s.visits source)) := by
  have hl := h.load ha
  exact hl.rests.passes hl.record rfl (fitAll ha.1 ran) hp

/-- A source that is run is on record afterwards. -/
theorem run_accepted (h : s.Sound vs ran) (ha : s.Accepts source) {t : Transcript}
    (hrun : s.run fuel source = some (s', t)) :
    s'.Sound (vs ++ s.visits source) (ran ++ s.visits source) := by
  obtain ⟨error, i, hi, rfl, -⟩ := ha.run_eq_some hrun
  have hl := h.load ha
  have hr := hl.rests.interpret hl.record rfl (fitAll ha.1 ran) hi
  have hd := Interpreter.interpret_distances hi
  exact ⟨hl.fresh, fun id hid => hd ▸ hl.unfiled id hid, hl.subset, hl.regular,
    fun hv => hd ▸ hl.filed hv, hr⟩

/-- A source that is not run leaves no record, and the interpreter where it was. -/
theorem run_rejected (h : s.Sound vs ran) (ha : ¬s.Accepts source) {t : Transcript}
    (hrun : s.run fuel source = some (s', t)) :
    s'.Sound (vs ++ s.visits source) ran ∧ s'.interpreter.world = s.interpreter.world ∧
      s'.interpreter.env = s.interpreter.env := by
  obtain ⟨rfl, -⟩ := run_eq_some_of_not_accepts ha hrun
  exact ⟨h.skip true s.hadRuntimeError rfl rfl rfl, rfl, rfl⟩

/-- A source keeps a session in order. -/
theorem run (h : s.Sound vs ran) {t : Transcript} (hrun : s.run fuel source = some (s', t)) :
    ∃ ran', s'.Sound (vs ++ s.visits source) ran' := by
  by_cases ha : s.Accepts source
  · exact ⟨_, h.run_accepted ha hrun⟩
  · exact ⟨_, (h.run_rejected ha hrun).1⟩

end Sound

/-- Between two sources a session is in order. -/
theorem History.sound (h : s.History vs) : ∃ ran, s.Sound vs ran := by
  induction h with
  | new sink clock => exact ⟨[], .new sink clock⟩
  | run _ hrun ih =>
    obtain ⟨ran, hs⟩ := ih
    exact hs.run hrun
  | reset _ ih =>
    obtain ⟨ran, hs⟩ := ih
    exact ⟨ran, hs.fresh, hs.unfiled, hs.subset, hs.regular, hs.filed, hs.rests⟩

end Session

end Lox
