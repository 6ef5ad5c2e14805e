import Lox.Machine.Step
import Mathlib.Logic.Function.Iterate

/-!
# Runs are iterated steps

A run ends at the first moment with a signal and an empty stack, and such a moment stays as it is.
So a run with enough fuel comes to the same end as iterated steps do (`run_eq_some_iff`), and more
fuel makes no difference.
-/

namespace Lox.Machine

open Scoping

variable {distances : Distances} {c c' : Config} {s : Signal} {fuel : Nat}

theorem Config.result?_eq_some : c.result? = some s ↔ c.control = .signal s ∧ c.stack = [] := by
  obtain ⟨control, env, stack, world⟩ := c
  cases control <;> cases stack <;> simp [Config.result?]

theorem step_of_result? (h : c.result? = some s) : step distances c = c := by
  obtain ⟨hc, hs⟩ := Config.result?_eq_some.1 h
  simp only [step, hc, hs]

theorem iterate_step_of_result? (h : c.result? = some s) (n : Nat) :
    (step distances)^[n] c = c :=
  Function.iterate_fixed (step_of_result? h) n

/-- A run that has ended already. -/
theorem run_of_result? {t : Signal} (hr : c.result? = some t) :
    run distances fuel c = some (s, c') ↔
      ∃ n ≤ fuel, (step distances)^[n] c = c' ∧ c'.result? = some s := by
  have hrun : run distances fuel c = some (t, c) := by cases fuel <;> simp only [run, hr]
  rw [hrun, Option.some.injEq, Prod.mk.injEq]
  constructor
  · intro h
    obtain ⟨rfl, rfl⟩ := h
    exact ⟨0, Nat.zero_le _, rfl, hr⟩
  · intro h
    obtain ⟨n, -, hc, hres⟩ := h
    rw [iterate_step_of_result? hr] at hc
    subst hc
    exact ⟨Option.some.inj (hr.symm.trans hres), rfl⟩

theorem run_eq_some_iff :
    run distances fuel c = some (s, c') ↔
      ∃ n ≤ fuel, (step distances)^[n] c = c' ∧ c'.result? = some s := by
  induction fuel generalizing c with
  | zero =>
    cases hr : c.result? with
    | some t => exact run_of_result? hr
    | none =>
      simp only [run, hr, reduceCtorEq, false_iff]
      intro h
      obtain ⟨n, hn, hc, hres⟩ := h
      obtain rfl := Nat.le_zero.1 hn
      rw [← hc, Function.iterate_zero_apply, hr] at hres
      cases hres
  | succ fuel ih =>
    cases hr : c.result? with
    | some t => exact run_of_result? hr
    | none =>
      simp only [run, hr, ih]
      constructor
      · intro h
        obtain ⟨n, hn, hc, hres⟩ := h
        exact ⟨n + 1, Nat.succ_le_succ hn, hc, hres⟩
      · intro h
        obtain ⟨n, hn, hc, hres⟩ := h
        cases n with
        | zero =>
          rw [← hc, Function.iterate_zero_apply, hr] at hres
          cases hres
        | succ n => exact ⟨n, Nat.le_of_succ_le_succ hn, hc, hres⟩

/-- More fuel makes no difference. -/
theorem run_mono {r : Signal × Config} {fuel' : Nat} (h : run distances fuel c = some r)
    (hle : fuel ≤ fuel') : run distances fuel' c = some r := by
  obtain ⟨s, c'⟩ := r
  obtain ⟨n, hn, hc, hres⟩ := run_eq_some_iff.1 h
  exact run_eq_some_iff.2 ⟨n, Nat.le_trans hn hle, hc, hres⟩

end Lox.Machine
