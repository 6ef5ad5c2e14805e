import Lox.Proofs.Session.Alike
import Lox.Proofs.Session.Lookup

/-!
# A rejected source leaves no trace

A source with a static error is not run, but it uses up node ids, and the check of scopes may have
filed distances for some of its nodes before it is rejected. None of this can be seen afterwards:
once the session is told to go on, it answers every sequence of steps as if it had never seen the
source (`Session.rejected_leaves_no_trace`).
-/

namespace Lox

open Scoping

namespace Session

variable {s : Session} {source : String}

/-- The end of a source that is rejected: its errors are reported, and at most distances are
filed. -/
theorem run_of_not_valid (h : ∀ id, s.nextId ≤ id → s.interpreter.distances[id]? = none)
    (he : s.hadError = false) (hv : ¬Valid source) :
    ∃ r t, (∀ fuel, s.run fuel source = some (r, t)) ∧ t.errors ≠ [] ∧ t.runtimeError = none ∧
      r.hadError = true ∧ r.hadRuntimeError = s.hadRuntimeError ∧ s.Extends r := by
  by_cases hc : s.Checks source
  · have ho : offences (check (s.parsed source).statements) ≠ [] := by
      intro ho
      exact hv (accepts_iff.1 ⟨hc, ho⟩).2
    refine ⟨_, _, fun fuel => (run_of_checks hc).trans (if_neg ho), ?_, rfl, rfl, rfl,
      extends_filed h source _ _⟩
    simpa using ho
  · refine ⟨_, _, run_of_syntaxErrors hc, ?_, rfl, rfl, rfl, extends_parsed h source _ _⟩
    intro herrors
    rw [syntaxErrors, List.append_eq_nil_iff, List.map_eq_nil_iff, List.map_eq_nil_iff] at herrors
    exact hc (checks_iff.2 ⟨he, herrors⟩)

/-- A rejected source leaves no trace. Whatever a session has come through, a source with a lexical,
grammatical or scoping error is reported without being run: the heap, the output, the clock and
the environment stay as they are. After a reset, every sequence of steps gives the answers that it
would have given without the source. -/
theorem rejected_leaves_no_trace {earlier : List String} (hs : s.Reached earlier)
    (he : s.hadError = false) (hv : ¬Valid source) :
    ∃ r t, (∀ fuel, s.run fuel source = some (r, t)) ∧ t.errors ≠ [] ∧ t.runtimeError = none ∧
      r.interpreter.world = s.interpreter.world ∧ r.interpreter.env = s.interpreter.env ∧
      ∀ steps, r.reset.follow steps = s.follow steps := by
  have hself : s.Alike .same s := hs.alike fun _ _ _ _ => ⟨rfl, trivial⟩
  obtain ⟨r, t, hrun, herrors, hruntime, -, hflag, hext⟩ :=
    run_of_not_valid hself.unfiled he hv
  refine ⟨r, t, hrun, herrors, hruntime, hext.world, hext.env, fun steps => ?_⟩
  have hreset : s.Extends r.reset := ⟨hext.env, hext.world, hext.nextId, hext.kept, hext.unfiled⟩
  have halike : s.Alike .same r.reset :=
    hself.extend (.refl hself.unfiled) hreset he.symm hflag
  exact answers_eq (halike.follow steps fun _ _ _ _ => ⟨rfl, trivial⟩)

/-- A source that is rejected for its last statement, with distances on file for those before it. -/
theorem rejected_leaves_no_trace_return :
    ¬Valid "{ var a; a = a; } return;" ∧
      ∃ r t, (∀ fuel, still.run fuel "{ var a; a = a; } return;" = some (r, t)) ∧
        r.nextId = 3 ∧ r.interpreter.distances[2]? = some 0 ∧ t.errors ≠ [] ∧
        ∀ steps, r.reset.follow steps = still.follow steps := by
  have hv : ¬Valid "{ var a; a = a; } return;" := by decide +kernel
  obtain ⟨r, t, hrun, herrors, -, -, -, hfollow⟩ :=
    rejected_leaves_no_trace (Reached.new {} fun _ => 0) rfl hv
  have hend : (still.run 0 "{ var a; a = a; } return;").map
      (fun r => (r.1.nextId, r.1.interpreter.distances[2]?)) = some (3, some 0) := by decide +kernel
  have hrun₀ : still.run 0 "{ var a; a = a; } return;" = some (r, t) := hrun 0
  rw [hrun₀] at hend
  obtain ⟨hnext, hfile⟩ := Prod.mk.inj (Option.some.inj hend)
  exact ⟨hv, r, t, hrun, hnext, hfile, herrors, hfollow⟩

end Session

end Lox
