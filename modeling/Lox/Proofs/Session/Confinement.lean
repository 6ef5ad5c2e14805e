import Lox.Proofs.Machine.Inside
import Lox.Proofs.Machine.Layout
import Lox.Proofs.Session.InternalFaults

/-!
# What an interpreter leaves behind

An interpreter executes a statement or evaluates an expression and comes to rest again. However the
work ended, with a value, done, with a return or with an error from the depth of a call, the
interpreter rests in the environment in which it started (`Interpreter.env_restored`). And an
expression or a block leaves no name behind: the scopes that were there before have the names and
the links that they had (`Interpreter.names_confined`).

Both follow from the frames: one that entered an environment restores the one before it on every
signal, and work declares names only in the innermost scope of its environment.
-/

namespace Lox

open Scoping Machine

/-! ## Invariants of sessions -/

/-- What also holds of a new session, holds between any two sources. -/
theorem Session.Reached.keeps {P : Env → World → Prop} {s : Session} {earlier : List String}
    (h : s.Reached earlier)
    (hnew : ∀ sink clock, P (Interpreter.new sink clock).env (Interpreter.new sink clock).world)
    (hexec : ∀ {i i' : Interpreter} {fuel st signal}, P i.env i.world →
      i.execute fuel st = some (signal, i') → P i'.env i'.world) :
    P s.interpreter.env s.interpreter.world := by
  induction h with
  | new sink clock => exact hnew sink clock
  | @run s s' earlier fuel source t _ hrun ih =>
    by_cases ha : s.Accepts source
    · obtain ⟨error, i, hi, rfl, -⟩ := ha.run_eq_some hrun
      exact Interpreter.interpret_keeps (P := fun i => P i.env i.world) hexec
        (i := s.loaded source) ih hi
    · obtain ⟨rfl, -⟩ := run_eq_some_of_not_accepts ha hrun
      exact ih
  | reset _ ih => exact ih

/-- The error with which work ended. -/
def Machine.Signal.error? : Signal → Option RuntimeError
  | .raised error => some error
  | .value _ | .done | .returned _ => none

namespace Interpreter

variable {i i' : Interpreter} {fuel : Nat} {signal : Signal} {control : Control} {base : ScopeId}
  {l : Layout}

/-! ## The way back -/

/-- Work comes back to where it started. If it declares names in scopes from `base` on, then those
before have the names that they had. -/
theorem complete_contained (hbase : base ≤ i.world.heap.scopes.size)
    (hdecl : control.declared ≠ [] → base ≤ i.env.top)
    (h : complete i.distances fuel (i.start control) = some (signal, i')) :
    i'.env = i.env ∧ i'.distances = i.distances ∧
      i.world.heap.Shelters base i'.world.heap := by
  obtain ⟨hd, n, c, rfl, hres, henv, hworld⟩ := complete_eq_some h
  have hstart : (i.start control).Contained i.world.heap base i.env :=
    ⟨⟨.refl hbase, rfl⟩, hdecl⟩
  -- The stack is empty at the end, so no environment has still to be restored.
  have hend := hstart.iterate (d := i.distances) n
  refine ⟨henv.trans (hend.ended hres), hd, ?_⟩
  rw [hworld]
  exact hend.heap

/-- Wherever work declares names, nothing is lost on the way. -/
theorem complete_restores (h : complete i.distances fuel (i.start control) = some (signal, i')) :
    i'.env = i.env ∧ i'.distances = i.distances ∧ i.world.heap.Shelters 0 i'.world.heap :=
  complete_contained (Nat.zero_le _) (fun _ => Nat.zero_le _) h

/-- The environment is restored on every exit. Whatever an interpreter evaluates or executes, and
however it ends, the interpreter comes to rest in the environment in which it started, with the same
distances on file, and all scopes, that of the globals too, are still there with all their names.
Hence a session is at the outermost level between any two sources. -/
theorem env_restored :
    (∀ {i i' : Interpreter} {fuel : Nat} {signal : Signal},
      (∃ e, i.evaluate fuel e = some (signal, i')) ∨ (∃ st, i.execute fuel st = some (signal, i')) →
        i'.env = i.env ∧ i'.distances = i.distances ∧
          i.world.heap.scopes.size ≤ i'.world.heap.scopes.size ∧
          ∀ scope name, i.world.heap.binds scope name → i'.world.heap.binds scope name) ∧
      ∀ {s : Session} {earlier : List String}, s.Reached earlier →
        s.interpreter.env = globalEnv := by
  constructor
  · rintro i i' fuel signal (⟨e, h⟩ | ⟨st, h⟩)
    · obtain ⟨henv, hd, hheap⟩ := complete_restores h
      exact ⟨henv, hd, hheap.size_le, fun _ _ hb => hheap.keeps hb⟩
    · obtain ⟨henv, hd, hheap⟩ := complete_restores h
      exact ⟨henv, hd, hheap.size_le, fun _ _ hb => hheap.keeps hb⟩
  · intro s earlier hs
    apply hs.keeps (P := fun env _ => env = globalEnv)
    · exact fun _ _ => rfl
    · intro i i' fuel st signal henv h
      exact (complete_restores h).1.trans henv

/-- A call raises an error from within a block in its body. The statement ends in the environment of
the session, and so does the session. -/
theorem env_restored_after_fault :
    let source := "{ fun f(g) { { var a = g; a(); } } f(nil); }"
    (∃ st signal i', (Session.still.loaded source).execute 40 st = some (signal, i') ∧
        signal.error?.isSome ∧ i'.env = globalEnv ∧ i'.world.heap.scopes.size = 4) ∧
      ∃ s t, Session.still.run 40 source = some (s, t) ∧ t.runtimeError.isSome ∧
        s.interpreter.env = globalEnv := by
  intro source
  have hexec : ((Session.still.parsed source).statements.head?.bind fun st =>
      ((Session.still.loaded source).execute 40 st).map fun r =>
        (r.1.error?.isSome, r.2.world.heap.scopes.size)) = some (true, 4) := by decide +kernel
  have hrun : (Session.still.run 40 source).map (·.2.runtimeError.isSome) = some true := by
    decide +kernel
  constructor
  · obtain ⟨st, -, hst⟩ := Option.bind_eq_some_iff.1 hexec
    obtain ⟨⟨signal, i'⟩, h, hend⟩ := Option.map_eq_some_iff.1 hst
    obtain ⟨herror, hsize⟩ := Prod.mk.inj hend
    exact ⟨st, signal, i', h, herror, (env_restored.1 (.inr ⟨st, h⟩)).1, hsize⟩
  · obtain ⟨⟨s, t⟩, h, hfault⟩ := Option.map_eq_some_iff.1 hrun
    exact ⟨s, t, h, hfault, env_restored.2 (.run (.new {} fun _ => 0) h)⟩

/-! ## Names and links -/

variable (l) in
/-- An interpreter at rest keeps to a layout. -/
structure In (i : Interpreter) : Prop where
  heap : i.world.heap.In l
  env : i.env.Follows l.links

/-- At first there is one scope, with nothing around it. -/
theorem in_new (sink : Sink) (clock : Nat → Float) :
    (Interpreter.new sink clock).In ⟨[none], 0, 0⟩ where
  heap := by
    refine ⟨rfl, rfl, rfl, ?_, fun hr => absurd hr (Option.some_ne_none _).symm⟩
    intro s n v hr
    obtain rfl := eq_of_read_new hr
    trivial
  env := .root rfl

/-- Work keeps to the layout of an interpreter, which grows. -/
theorem In.complete (hi : i.In l) (control : Control) (hcontrol : control.In l)
    (h : complete i.distances fuel (i.start control) = some (signal, i')) :
    ∃ l', l.Grows l' ∧ i'.In l' := by
  obtain ⟨-, n, c, rfl, -, henv, hworld⟩ := complete_eq_some h
  have hstart : (i.start control).In l := ⟨⟨hi.heap, hi.env, List.forall_mem_nil _⟩, hcontrol⟩
  obtain ⟨l', hg, hend⟩ := hstart.iterate (d := i.distances) n
  refine ⟨l', hg, ?_, ?_⟩
  · rw [hworld]
    exact hend.heap
  · rw [henv]
    exact hend.env

/-- What declares nothing in its own environment leaves all scopes with their names and links. -/
theorem complete_confined (control : Control) (hdecl : control.declared = [])
    (hcontrol : ∀ l, control.In l)
    (h : complete i.distances fuel (i.start control) = some (signal, i')) :
    i.world.heap.scopes.size ≤ i'.world.heap.scopes.size ∧
      (∀ scope < i.world.heap.scopes.size, ∀ name,
        i'.world.heap.binds scope name ↔ i.world.heap.binds scope name) ∧
      ∀ l, i.In l → ∃ l', i'.In l' ∧ l.links <+: l'.links := by
  -- With nothing declared here, all names go to scopes that are still to be made.
  obtain ⟨-, -, hheap⟩ :=
    complete_contained (Nat.le_refl _) (fun hne => absurd hdecl hne) h
  refine ⟨hheap.size_le, fun scope hlt name => hheap.binds_iff hlt name, fun l hi => ?_⟩
  obtain ⟨l', hg, hi'⟩ := hi.complete control (hcontrol l) h
  exact ⟨l', hi', hg.links⟩

/-- Scopes do not leak names. Whatever expression an interpreter evaluates and whatever block it
executes, and however it ends, each scope that was there before has the names that it had, and the
links between these scopes are what they were. -/
theorem names_confined
    (h : (∃ e, i.evaluate fuel e = some (signal, i')) ∨
      ∃ ss, i.execute fuel (.block ss) = some (signal, i')) :
    i.world.heap.scopes.size ≤ i'.world.heap.scopes.size ∧
      (∀ scope < i.world.heap.scopes.size, ∀ name,
        i'.world.heap.binds scope name ↔ i.world.heap.binds scope name) ∧
      ∀ l, i.In l → ∃ l', i'.In l' ∧ l.links <+: l'.links := by
  rcases h with ⟨e, h⟩ | ⟨ss, h⟩
  · exact complete_confined (.eval e) rfl (fun _ => trivial) h
  · exact complete_confined (.exec (.block ss)) rfl (fun _ => trivial) h

/-- A function that is called in a block declares names, assigns to a variable of the block and then
raises an error. Nothing is declared among the globals, which stay the outermost scope. -/
theorem names_confined_in_call :
    let source := "var a; fun f(g) { var b; fun h() {} class K {} a = g; b(); } f(nil);"
    let block := Stmt.block (Session.still.parsed source).statements
    let i := Session.still.interpreter.learn (check [block])
    ∃ signal i', i.execute 60 block = some (signal, i') ∧ signal.error?.isSome ∧
      i'.world.heap.scopes.size = 3 ∧ i'.world.heap.binds globalScope "clock" ∧
      ¬i'.world.heap.binds globalScope "b" ∧ ∃ l, i'.In l ∧ l.links[globalScope]? = some none := by
  intro source block i
  have hexec : (i.execute 60 block).map (fun r =>
      (r.1.error?.isSome, r.2.world.heap.scopes.size)) = some (true, 3) := by decide +kernel
  obtain ⟨⟨signal, i'⟩, h, hend⟩ := Option.map_eq_some_iff.1 hexec
  obtain ⟨herror, hsize⟩ := Prod.mk.inj hend
  obtain ⟨-, hnames, hlinks⟩ := names_confined (.inr ⟨_, h⟩)
  have hglobal := hnames globalScope (by decide)
  have hnew := in_new {} fun _ => 0
  obtain ⟨l, hin, added, hadded⟩ := hlinks _ ⟨hnew.heap, hnew.env⟩
  refine ⟨signal, i', h, herror, hsize, (hglobal _).2 (by decide), fun hb => ?_, l, hin, ?_⟩
  · exact absurd ((hglobal _).1 hb) (by decide)
  · rw [← hadded]
    rfl

end Interpreter

end Lox
