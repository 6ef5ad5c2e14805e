import Lox.Proofs.Lexical.Simulation
import Lox.Proofs.Scoping.Initializers
import Lox.Proofs.Session.History

/-!
# Scoping is lexical

A source that is run by distances along environments comes to the same end as under the lexical
interpreter, with the same output (`Session.run_iff_lexical`): distances and environments implement
lexical scoping. The source must be free of assignments to a local variable in its own initializer.
There the check of scopes takes the name for the new variable, which does not exist yet.
-/

namespace Lox

open Scoping Machine Lexical

/-! ## What is on file guides the machine -/

theorem Session.Sound.guides {s : Session} {vs ran : List Visit} (h : s.Sound vs ran)
    (hready : ∀ v ∈ ran, v.Ready) : Guides (OnRecord ran) s.interpreter.distances where
  toRecord := h.record
  filed := by
    intro kind ctx id name hv
    cases kind with
    | read =>
      obtain ⟨ctx', hview, hmem⟩ := hv
      rw [h.filed hmem, Context.hops?_eq_view, hview, ← Context.hops?_eq_view]
    | write | this | super => exact h.filed hv
  ready := by
    intro kind ctx id name hv
    cases kind with
    | read => exact (h.record.clean hv).read
    | write => exact hready _ hv
    | this => exact (h.regular _ hv).innermost?_this
    | super =>
      have hregular := h.regular _ hv
      have hname : name.lexeme = "super" := Kind.eq_super_of_ofWord (hregular.spelled _ rfl)
      obtain ⟨hops, -, hsuper⟩ := hregular.anchored.super hregular.clean.super
      intro hfalse
      have hzero := Context.hops?_of_innermost? hfalse
      rw [hname, hsuper] at hzero
      cases hzero
  super := by
    intro ctx id name hv
    have hregular := h.regular _ hv
    exact ⟨Kind.eq_super_of_ofWord (hregular.spelled _ rfl), hregular.anchored⟩

/-! ## One statement -/

namespace Lexical

variable {V : Visit → Prop} {distances : Distances} {n fuel : Nat} {c c' : Config} {m : Link}
  {s : Store} {w : World} {ctx : Context}

/-- Every frame passes an error on. -/
theorem steps_raised (distances : Distances) (e : RuntimeError) (env : Env) (stack : List Frame)
    (w : World) :
    ∃ env', Steps distances ⟨.signal (.raised e), env, stack, w⟩
      ⟨.signal (.raised e), env', [], w⟩ := by
  -- Down the stack: no frame stops an error.
  induction stack generalizing env with
  | nil => exact ⟨env, 0, rfl⟩
  | cons frame stack ih =>
    have hstep : ∃ env', step distances ⟨.signal (.raised e), env, frame :: stack, w⟩ =
        ⟨.signal (.raised e), env', stack, w⟩ := by
      cases frame <;> exact ⟨_, rfl⟩
    obtain ⟨env', hstep⟩ := hstep
    obtain ⟨env'', hrest⟩ := ih env'
    exact ⟨env'', Steps.trans ⟨1, hstep⟩ hrest⟩

theorem Steps.run (h : Steps distances c c') {signal : Signal} (hres : c'.result? = some signal) :
    ∃ fuel, Machine.run distances fuel c = some (signal, c') := by
  obtain ⟨n, hc⟩ := h
  exact ⟨n, run_eq_some_iff.2 ⟨n, Nat.le_refl n, hc, hres⟩⟩

theorem Busy.run (h : Busy distances n c) (hle : fuel ≤ n) :
    Machine.run distances fuel c = none := by
  cases hrun : Machine.run distances fuel c with
  | none => rfl
  | some r =>
    obtain ⟨k, hk, hc, hres⟩ := run_eq_some_iff.1 hrun
    have hbusy := h.mono (Nat.le_trans hk hle)
    rw [Busy, hc, hres] at hbusy
    cases hbusy

/-- At the outermost level no name is local. -/
theorem Stands.outermost (ha : Agree V m s w) (hs : ctx.scopes = []) :
    Stands m ctx ⟨[], false⟩ globalEnv where
  sees := by
    have hhops : ∀ x, ctx.hops? x = none := fun x => by rw [Context.hops?, hs]; rfl
    refine ⟨fun _ => rfl, fun hne => absurd hs hne, fun hd => ?_, fun _ => rfl⟩
    rw [hhops] at hd
    cases hd
  tight x _ := by
    cases hc : m.cell (Env.top globalEnv) x with
    | none => rfl
    | some l => exact absurd (ha.locals hc).1 (Nat.lt_irrefl _)
  settled := by
    rw [hs]
    exact List.forall_mem_nil _
  isLocal := by simp [hs]

section

variable {i : Interpreter} {st : Stmt} {s' : Store} (hV : Guides V i.distances)
  (henv : i.env = globalEnv) (ha : Agree V m s i.world) (hs : ctx.scopes = [])
  (hfit : st.Fits V ctx)
include hV henv ha hs hfit

theorem follows_start (n : Nat) :
    Follows i.distances n (i.start (.exec st))
      (Completes V m globalEnv [] (ctx.defineAll st.declared) false) (exec n ⟨[], false⟩ st s) := by
  have hfollow := (follows hV n).2 [] (Stands.outermost ha hs) ha hfit
  rw [Interpreter.start, henv]
  exact hfollow

theorem execute_none (h : exec n ⟨[], false⟩ st s = none) (hle : fuel ≤ n) :
    i.execute fuel st = none := by
  have hbusy := follows_start hV henv ha hs hfit n
  rw [h] at hbusy
  rw [Interpreter.execute, Interpreter.complete, Busy.run hbusy hle]
  rfl

theorem execute_error {e : RuntimeError} (h : exec n ⟨[], false⟩ st s = some (.error e, s')) :
    ∃ fuel i', i.execute fuel st = some (.raised e, i') ∧ i'.world.sink = s'.sink := by
  have hfollow := follows_start hV henv ha hs hfit n
  rw [h] at hfollow
  obtain ⟨⟨control, env, stack, w⟩, hsteps, hcontrol, hsink⟩ := hfollow
  subst hcontrol
  obtain ⟨env', hraised⟩ := steps_raised i.distances e env stack w
  obtain ⟨fuel, hrun⟩ := (hsteps.trans hraised).run rfl
  refine ⟨fuel, ⟨i.distances, env', w⟩, ?_, hsink⟩
  rw [Interpreter.execute, Interpreter.complete, hrun]
  rfl

theorem execute_ok {completion : Completion}
    (h : exec n ⟨[], false⟩ st s = some (.ok completion, s')) :
    ∃ fuel signal w m', i.execute fuel st = some (signal, ⟨i.distances, globalEnv, w⟩) ∧
      (∀ e, signal ≠ .raised e) ∧ Agree V m' s' w := by
  have hfollow := follows_start hV henv ha hs hfit n
  rw [h] at hfollow
  obtain ⟨c, hsteps, hc⟩ := hfollow
  cases completion with
  | done names =>
    obtain ⟨m', w, rfl, -, -, hag⟩ := hc
    obtain ⟨fuel, hrun⟩ := hsteps.run rfl
    refine ⟨fuel, .done, w, m', ?_, fun e => Signal.noConfusion, hag⟩
    rw [Interpreter.execute, Interpreter.complete, hrun]
    rfl
  | returned v =>
    obtain ⟨m', v', w, rfl, -, hag, -⟩ := hc
    obtain ⟨fuel, hrun⟩ := hsteps.run rfl
    refine ⟨fuel, .returned v', w, m', ?_, fun e => Signal.noConfusion, hag⟩
    rw [Interpreter.execute, Interpreter.complete, hrun]
    rfl

end

/-! ## Programs -/

variable {V : Visit → Prop} {i : Interpreter} {m : Link} {s s' : Store} {ctx : Context}
  {ss : List Stmt} {n : Nat}

/-- The error with which a program ends. -/
def errorOf : Except RuntimeError Unit → Option RuntimeError
  | .ok () => none
  | .error e => some e

theorem interpret_none (hV : Guides V i.distances) (henv : i.env = globalEnv)
    (ha : Agree V m s i.world) (hs : ctx.scopes = []) (hfit : Stmt.FitAll V ctx ss)
    (h : program n ss s = none) {fuel : Nat} (hle : fuel ≤ n) : i.interpret fuel ss = none := by
  induction ss generalizing i m s ctx with
  | nil => cases h
  | cons st rest ih =>
    obtain ⟨hhead, hrest⟩ := Stmt.fitAll_cons.1 hfit
    rw [program] at h
    rcases hexec : exec n ⟨[], false⟩ st s with _ | ⟨_ | completion, s'⟩
    · rw [Interpreter.interpret, execute_none hV henv ha hs hhead hexec hle]
    · simp only [bind, hexec] at h
      cases h
    · rw [bind_ok hexec] at h
      -- The statement ends with some fuel, so with the fuel at hand it ends alike or not at all.
      obtain ⟨fuel', signal, w, m', hexecute, hne, hag⟩ := execute_ok hV henv ha hs hhead hexec
      cases hnow : i.execute fuel st with
      | none => rw [Interpreter.interpret, hnow]
      | some r =>
        have hsame := Interpreter.execute_mono hnow (Nat.le_max_left fuel fuel')
        rw [Interpreter.execute_mono hexecute (Nat.le_max_right fuel fuel')] at hsame
        cases hsame
        rw [Interpreter.interpret_next hnow hne]
        exact ih hV rfl hag (Context.defineAll_scopes_nil hs _) hrest h

theorem interpret_some (hV : Guides V i.distances) (henv : i.env = globalEnv)
    (ha : Agree V m s i.world) (hs : ctx.scopes = []) (hfit : Stmt.FitAll V ctx ss)
    {r : Except RuntimeError Unit} (h : program n ss s = some (r, s')) :
    ∃ fuel i', i.interpret fuel ss = some (errorOf r, i') ∧ i'.world.sink = s'.sink := by
  induction ss generalizing i m s ctx with
  | nil =>
    cases h
    refine ⟨0, i, ?_, ha.sink.symm⟩
    -- No statement is left: the output is flushed, which may fail on both sides alike.
    rw [Interpreter.interpret, ha.sink]
    cases i.world.sink.flush <;> rfl
  | cons st rest ih =>
    obtain ⟨hhead, hrest⟩ := Stmt.fitAll_cons.1 hfit
    rw [program] at h
    rcases hexec : exec n ⟨[], false⟩ st s with _ | ⟨e | completion, s₁⟩
    · simp only [bind, hexec] at h
      cases h
    · simp only [bind, hexec] at h
      cases h
      obtain ⟨fuel, i', hexecute, hsink⟩ := execute_error hV henv ha hs hhead hexec
      exact ⟨fuel, i', Interpreter.interpret_raised hexecute, hsink⟩
    · rw [bind_ok hexec] at h
      obtain ⟨fuel, signal, w, m', hexecute, hne, hag⟩ := execute_ok hV henv ha hs hhead hexec
      obtain ⟨fuel', i', hinterpret, hsink⟩ :=
        ih (i := ⟨i.distances, globalEnv, w⟩) hV rfl hag (Context.defineAll_scopes_nil hs _) hrest h
      -- One amount of fuel is enough for the statement and for those after it.
      refine ⟨max fuel fuel', i', ?_, hsink⟩
      rw [Interpreter.interpret_next
        (Interpreter.execute_mono hexecute (Nat.le_max_left fuel fuel')) hne]
      exact Interpreter.interpret_mono hinterpret (Nat.le_max_right fuel fuel')

/-- Both start with nothing but the builtins. -/
theorem agree_new (sink : Sink) (clock : Nat → Float) :
    Agree V ⟨fun _ _ => none, 1⟩ (Store.new sink clock) (Interpreter.new sink clock).world where
  size := rfl
  nonempty := Nat.zero_lt_one
  sink := rfl
  clock := rfl
  nextId := rfl
  globals x := by
    show Option.Rel _ (Bindings.get? [("clock", Value.builtin .clock)] x)
      (Bindings.get? Interpreter.builtins x)
    rw [Interpreter.builtins, Bindings.get?_cons, Bindings.get?_cons]
    split
    · exact .some (.builtin .clock)
    · exact .none
  locals := nofun
  apart := nofun
  fieldCount := rfl
  fields _ _ := .none

end Lexical

/-! ## Sources -/

namespace Session

variable {sink : Sink} {clock : Nat → Float} {source : String}

theorem run_eq_some_iff_interpret {s : Session} (ha : s.Accepts source)
    {error : Option RuntimeError} {output : Sink} :
    (∃ fuel s' t, s.run fuel source = some (s', t) ∧ t.runtimeError = error ∧
      s'.interpreter.world.sink = output) ↔
      ∃ fuel i, (s.loaded source).interpret fuel (s.parsed source).statements = some (error, i) ∧
        i.world.sink = output := by
  simp only [run_of_checks ha.1, if_pos ha.2, Option.map_eq_some_iff]
  constructor
  · intro h
    obtain ⟨fuel, s', t, ⟨⟨e, i⟩, hi, heq⟩, rfl, rfl⟩ := h
    cases heq
    exact ⟨fuel, i, hi, rfl⟩
  · intro h
    obtain ⟨fuel, i, hi, rfl⟩ := h
    exact ⟨fuel, _, _, ⟨(error, i), hi, rfl⟩, rfl, rfl⟩

/-- Distances along environments implement lexical scoping. A source without static errors, in
which no local variable is assigned to in its own initializer, ends with an error and an output
exactly if the lexical interpreter ends so. -/
theorem run_iff_lexical (ha : (new sink clock).Accepts source)
    (hearly : Stmt.assignsEarlyAny false ((new sink clock).parsed source).statements = false)
    (error : Option RuntimeError) (output : Sink) :
    (∃ fuel s' t, (new sink clock).run fuel source = some (s', t) ∧ t.runtimeError = error ∧
      s'.interpreter.world.sink = output) ↔
      ∃ n, Lexical.run n sink clock ((new sink clock).parsed source).statements =
        some (error, output) := by
  have hload := (Sound.new sink clock).load ha
  -- Without an assignment in its own initializer, no name is looked up before it is ready.
  have hready : ∀ v ∈ [] ++ (new sink clock).visits source, v.Ready := by
    rw [List.nil_append, visits_of_checks ha.1]
    have hsettled : Settled Context.top.scopes := List.forall_mem_nil _
    exact Stmt.ready_visitsAll hsettled (fun hne => absurd rfl hne) _ hearly
  have hguides := hload.guides hready
  have hfit := Sound.fitAll ha.1 []
  have hagree := agree_new (V := OnRecord ([] ++ (new sink clock).visits source)) sink clock
  rw [run_eq_some_iff_interpret ha]
  constructor
  · intro h
    obtain ⟨fuel, i, hi, rfl⟩ := h
    -- The lexical interpreter cannot give up while the machine comes to an end.
    cases hprogram : program fuel ((new sink clock).parsed source).statements
        (Store.new sink clock) with
    | none =>
      rw [interpret_none hguides rfl hagree rfl hfit hprogram (Nat.le_refl fuel)] at hi
      cases hi
    | some p =>
      obtain ⟨r, s'⟩ := p
      obtain ⟨fuel', i', hi', hsink⟩ := interpret_some hguides rfl hagree rfl hfit hprogram
      -- Both runs of the machine end, so they end alike, whichever has more fuel.
      have hsame := Interpreter.interpret_mono hi (Nat.le_max_left fuel fuel')
      rw [Interpreter.interpret_mono hi' (Nat.le_max_right fuel fuel')] at hsame
      cases hsame
      refine ⟨fuel, ?_⟩
      rw [Lexical.run, hprogram, hsink]
      cases r <;> rfl
  · intro h
    obtain ⟨n, hn⟩ := h
    obtain ⟨⟨r, s'⟩, hprogram, heq⟩ := Option.map_eq_some_iff.1 hn
    obtain ⟨fuel, i, hi, hsink⟩ := interpret_some hguides rfl hagree rfl hfit hprogram
    cases r <;> cases heq <;> exact ⟨fuel, i, hi, hsink⟩

/-- The function keeps to the outer variable, though a nearer one is declared before the call. -/
def shadowing : String := "var a; { fun f() { print a; } var a = true; f(); }"

theorem run_iff_lexical_shadowing :
    (new {} fun _ => 0).Accepts shadowing ∧
      Stmt.assignsEarlyAny false ((new {} fun _ => 0).parsed shadowing).statements = false ∧
      ∃ fuel s' t, (new {} fun _ => 0).run fuel shadowing = some (s', t) ∧
        t.runtimeError = none ∧ s'.interpreter.world.sink = { written := "nil\n".toUTF8 } := by
  have ha : (new {} fun _ => 0).Accepts shadowing := by decide +kernel
  have hearly : Stmt.assignsEarlyAny false
      ((new {} fun _ => 0).parsed shadowing).statements = false := by decide +kernel
  have hlexical : (Lexical.run 6 {} (fun _ => 0)
      ((new {} fun _ => 0).parsed shadowing).statements).map
        (fun r => (r.1, r.2.written, r.2.limit, r.2.flushFails)) =
      some (none, "nil\n".toUTF8, none, false) := by decide +kernel
  obtain ⟨⟨error, ⟨written, limit, flushFails⟩⟩, hrun, heq⟩ := Option.map_eq_some_iff.1 hlexical
  cases heq
  exact ⟨ha, hearly, (run_iff_lexical ha hearly _ _).2 ⟨6, hrun⟩⟩

end Session

end Lox
