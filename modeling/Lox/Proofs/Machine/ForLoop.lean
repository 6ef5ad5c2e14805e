import Lox.Grammar.Statement
import Lox.Proofs.Machine.Calls
import Lox.Proofs.Machine.Inside

/-!
# `for` loops run as they are written

The grammar has no tree for a `for` loop, it writes one with a block and a `while` loop. Here the
loop is taken as it stands in the source, by its clauses (`ForLoop`), and told what to do
(`ForLoop.Runs`): the initializer is run once, in a fresh scope around the whole loop; before each
round the condition is evaluated, and an absent one is true; a round runs the body and, if the body
is done, evaluates the increment. As names are found by the number of scopes between them and their
declaration, a round with an increment has an empty scope of its own, as in the tree.

A run is taken apart at its frames. What waits below makes no difference, so the work above a frame
ends by itself, and then the frame goes on (`Config.comesTo_onto`). So each piece of the loop is
looked at with nothing around it (`Does`), and only the rounds need an induction, on the number of
steps.

Main statement: `ForLoop.runs_as_written`.
-/

namespace Lox

/-- A `for` loop by its clauses. -/
structure ForLoop where
  start : Option Stmt
  condition : Option Expr
  step : Option Expr
  body : Stmt

/-- What the grammar makes of the loop. -/
def ForLoop.tree (l : ForLoop) : Stmt := .forLoop l.start l.condition l.step l.body

namespace Grammar

open Rule

/-- Reads the clauses and the body of a `for` loop, after its first word. -/
def forClauses (n : Nat) : Rule ForLoop := do
  let _ ← expect .leftParen .forOpen
  let start ← forInitializer n
  let condition ← exprUntil .semicolon n
  let _ ← expect .semicolon .forConditionEnd
  let step ← exprUntil .rightParen n
  let _ ← expect .rightParen .forClose
  let body ← statement n
  pure ⟨start, condition, step, body⟩

theorem map_bind_eq {α β γ : Type} (f : β → γ) (p : Rule α) (q : α → Rule β) :
    f <$> (p >>= q) = p >>= fun a => f <$> q a := by
  funext c
  simp only [Functor.map, bind]
  cases p c <;> rfl

theorem forLoop_eq (n : Nat) : forLoop (n + 1) = ForLoop.tree <$> forClauses n := by
  simp only [forClauses, map_bind_eq]
  rfl

end Grammar

namespace Machine

variable {d : Scoping.Distances} {c : Config} {s t : Signal} {env home : Env} {w w' : World}

/-! ## Runs by themselves -/

namespace Config

variable (d) in
/-- The run ends with a signal, in an environment and a world. -/
def ComesTo (c : Config) (s : Signal) (env : Env) (w : World) : Prop :=
  ∃ n, (step d)^[n] c = ⟨.signal s, env, [], w⟩

theorem comesTo_step : (step d c).ComesTo d s env w ↔ c.ComesTo d s env w := by
  constructor
  · rintro ⟨n, hn⟩
    exact ⟨n + 1, hn⟩
  · rintro ⟨n, hn⟩
    cases n with
    -- A configuration that has ended steps to itself.
    | zero =>
      rw [Function.iterate_zero_apply] at hn
      subst hn
      exact ⟨0, rfl⟩
    | succ n => exact ⟨n, hn⟩

theorem comesTo_signal :
    ComesTo d ⟨.signal t, home, [], w⟩ s env w' ↔ s = t ∧ env = home ∧ w' = w := by
  constructor
  · rintro ⟨n, hn⟩
    rw [iterate_step_of_result? (s := t) rfl] at hn
    cases hn
    exact ⟨rfl, rfl, rfl⟩
  · rintro ⟨rfl, rfl, rfl⟩
    exact ⟨0, rfl⟩

/-- A run ends in one way only. -/
theorem ComesTo.unique (h : c.ComesTo d s env w) (h' : c.ComesTo d t home w') :
    s = t ∧ env = home ∧ w = w' := by
  obtain ⟨n, hn⟩ := h
  obtain ⟨m, hm⟩ := h'
  -- The longer run goes through the end of the shorter one, where it stays.
  have hstill : (step d)^[m + n] c = (step d)^[n + m] c := by rw [Nat.add_comm]
  rw [Function.iterate_add_apply, Function.iterate_add_apply, hn, hm,
    iterate_step_of_result? (s := s) rfl, iterate_step_of_result? (s := t) rfl] at hstill
  cases hstill
  exact ⟨rfl, rfl, rfl⟩

/-- The work above a frame ends by itself, and then the frame goes on. -/
theorem comesTo_frame {base : ScopeId} {h : Heap} {f : Frame} {n : Nat}
    (hc : c.Contained h base home) (hn : (step d)^[n] (c.onto [f]) = ⟨.signal s, env, [], w⟩) :
    ∃ k < n, ∃ t w', c.ComesTo d t home w' ∧
      (step d)^[k] (Config.resume d ⟨.signal t, home, [], w'⟩ t f) = ⟨.signal s, env, [], w⟩ := by
  have hres : ((step d)^[n] (c.onto [f])).result? = some s := by rw [hn]; rfl
  obtain ⟨m, k, t, rfl, -, hend, hsplit⟩ := ended_frame hres
  have hhome := (hc.iterate m).ended hend
  rw [hn] at hsplit
  generalize he : (step d)^[m] c = e at hend hhome hsplit
  obtain ⟨control, env', stack, w'⟩ := e
  obtain ⟨rfl, rfl⟩ : control = .signal t ∧ stack = [] := result?_eq_some.1 hend
  obtain rfl : env' = home := hhome
  exact ⟨k, by omega, t, w', ⟨m, he⟩, hsplit.symm⟩

theorem comesTo_onto {base : ScopeId} {h : Heap} {f : Frame} (hc : c.Contained h base home) :
    (c.onto [f]).ComesTo d s env w ↔ ∃ t w', c.ComesTo d t home w' ∧
      (Config.resume d ⟨.signal t, home, [], w'⟩ t f).ComesTo d s env w := by
  constructor
  · rintro ⟨n, hn⟩
    obtain ⟨k, -, t, w', ht, hk⟩ := comesTo_frame hc hn
    exact ⟨t, w', ht, k, hk⟩
  · rintro ⟨t, w', ⟨m, hm⟩, k, hk⟩
    -- The first end of the run above the frame is the only one.
    have hres : ((step d)^[m] c).result? = some t := by rw [hm]; rfl
    rcases busy_or_ended c d (m + 1) with hbusy | ⟨j, hj, t', hend, hfirst⟩
    · rw [hbusy m (Nat.lt_succ_self m)] at hres
      cases hres
    · obtain ⟨i, rfl⟩ := Nat.exists_eq_add_of_le' (Nat.le_of_lt_succ hj)
      rw [Function.iterate_add_apply, iterate_step_of_result? hend] at hm
      refine ⟨k + 1 + j, ?_⟩
      rw [Function.iterate_add_apply, iterate_onto hfirst, hm]
      exact hk

/-- A frame that waits for the value of an expression: any other signal passes. -/
theorem comesTo_onValue {go : Config → Value → Config} :
    (onValue ⟨.signal t, env, [], w⟩ t go).ComesTo d s env w' ↔
      (∃ v, t = .value v ∧ (go ⟨.signal t, env, [], w⟩ v).ComesTo d s env w') ∨
        (∀ v, t ≠ .value v) ∧ s = t ∧ w' = w := by
  cases t with
  | value v =>
    simp only [onValue, Signal.value.injEq, exists_eq_left', ne_eq, forall_eq', false_and,
      or_false]
  | _ => simp [onValue, Config.signal, comesTo_signal]

/-- A frame that waits for a statement to be done: any other signal passes. -/
theorem comesTo_onDone {go : Config → Config} :
    (onDone ⟨.signal t, env, [], w⟩ t go).ComesTo d s env w' ↔
      t = .done ∧ (go ⟨.signal t, env, [], w⟩).ComesTo d s env w' ∨
        t ≠ .done ∧ s = t ∧ w' = w := by
  cases t with
  | done => simp [onDone]
  | _ => simp [onDone, Config.signal, comesTo_signal]

/-- Work amid other frames comes back as it ends by itself. -/
theorem comesBack_iff {e : Config} {rest : List Frame} (he : step d c = e.onto rest) :
    (∃ n, c.ComesBack d rest n s ∧ ((step d)^[n] c).env = env ∧ ((step d)^[n] c).world = w) ↔
      e.ComesTo d s env w := by
  have hcomes : ∀ {n}, c.ComesBack d rest n s →
      e.ComesTo d s ((step d)^[n] c).env ((step d)^[n] c).world := by
    intro n hback
    obtain ⟨m, rfl, hend, hrun⟩ := hback.alone he
    rw [hrun m (Nat.le_refl m)]
    refine ⟨m, ?_⟩
    generalize (step d)^[m] e = e' at hend
    obtain ⟨control, env', stack, w'⟩ := e'
    obtain ⟨rfl, rfl⟩ : control = .signal s ∧ stack = [] := result?_eq_some.1 hend
    rfl
  constructor
  · rintro ⟨n, hback, rfl, rfl⟩
    exact hcomes hback
  · rintro ⟨m, hm⟩
    -- The run by itself ends, so the one amid frames comes back, and it ends in one way only.
    have hrun := run_eq_some_iff.2 ⟨m, Nat.le_refl m, hm, rfl⟩
    obtain ⟨n, hback⟩ := comesBack_of_run he hrun
    obtain ⟨-, henv, hworld⟩ := (hcomes hback).unique ⟨m, hm⟩
    exact ⟨n, hback, henv, hworld⟩

end Config

open Config

/-! ## Pieces of work -/

/-- An environment with a new scope inside it, and the world with that scope. -/
def World.enter (w : World) (env : Env) : Env × World :=
  let (inner, heap) := w.heap.nest env []
  (inner, { w with heap })

variable (d) in
/-- Work with nothing around it ends with a signal and a world, back in its environment. -/
def Does (work : Control) (env : Env) (w : World) (s : Signal) (w' : World) : Prop :=
  ComesTo d ⟨work, env, [], w⟩ s env w'

theorem contained_start (work : Control) (env : Env) (stack : List Frame) (w : World)
    (h : Returns 0 env env stack) : Contained w.heap 0 env ⟨work, env, stack, w⟩ :=
  ⟨⟨.refl (Nat.zero_le _), h⟩, fun _ => Nat.zero_le _⟩

/-- Work, and then the frame below goes on. -/
theorem comesTo_over {work : Control} {f : Frame} {home : Env} :
    ComesTo d ⟨work, env, [f], w⟩ s home w' ↔ ∃ t w₁, Does d work env w t w₁ ∧
      (Config.resume d ⟨.signal t, env, [], w₁⟩ t f).ComesTo d s home w' :=
  comesTo_onto (c := ⟨work, env, [], w⟩) (contained_start work env [] w rfl)

/-- An expression ends with a value or raises an error. -/
theorem Does.of_eval {e : Expr} (h : Does d (.eval e) env w s w') :
    (∃ v, s = .value v) ∨ ∃ error, s = .raised error := by
  obtain ⟨n, hn⟩ := h
  have hstart : Config.Ends .value ⟨.eval e, env, [], w⟩ := ⟨.value, rfl, rfl⟩
  have hends := (hstart.iterate (d := d) n).ended (s := s) (by rw [hn]; rfl)
  cases s with
  | value v => exact .inl ⟨v, rfl⟩
  | done => exact absurd rfl hends
  | returned v => cases hends
  | raised error => exact .inr ⟨error, rfl⟩

theorem does_expression {e : Expr} : Does d (.exec (.expression e)) env w s w' ↔
    s = .done ∧ (∃ v, Does d (.eval e) env w (.value v) w') ∨
      ∃ error, s = .raised error ∧ Does d (.eval e) env w s w' := by
  rw [Does, ← comesTo_step]
  refine comesTo_over.trans ?_
  simp only [Config.resume, comesTo_onValue]
  constructor
  · rintro ⟨t, w₁, ht, ⟨v, rfl, hend⟩ | ⟨hv, rfl, rfl⟩⟩
    · obtain ⟨rfl, -, rfl⟩ := comesTo_signal.1 hend
      exact .inl ⟨rfl, v, ht⟩
    · rcases ht.of_eval with ⟨v, rfl⟩ | ⟨error, rfl⟩
      · exact absurd rfl (hv v)
      · exact .inr ⟨error, rfl, ht⟩
  · rintro (⟨rfl, v, hv⟩ | ⟨error, rfl, herror⟩)
    · exact ⟨_, w', hv, .inl ⟨v, rfl, comesTo_signal.2 ⟨rfl, rfl, rfl⟩⟩⟩
    · exact ⟨_, w', herror, .inr ⟨fun v => Signal.noConfusion, rfl, rfl⟩⟩

/-- The last statement of a sequence. -/
theorem comesTo_last {last : Stmt} :
    ComesTo d ⟨.exec last, env, [.sequence []], w⟩ s env w' ↔ Does d (.exec last) env w s w' := by
  refine comesTo_over.trans ?_
  simp only [Config.resume, comesTo_onDone]
  constructor
  · rintro ⟨t, w₁, ht, ⟨rfl, hend⟩ | ⟨-, rfl, rfl⟩⟩
    · obtain ⟨rfl, -, rfl⟩ := comesTo_signal.1 hend
      exact ht
    · exact ht
  · intro h
    refine ⟨s, w', h, ?_⟩
    by_cases hs : s = .done
    · exact .inl ⟨hs, comesTo_signal.2 ⟨hs, rfl, rfl⟩⟩
    · exact .inr ⟨hs, rfl, rfl⟩

/-- Two statements in a scope of their own: the second is executed if the first is done. -/
theorem does_block {first second : Stmt} : Does d (.exec (.block [first, second])) env w s w' ↔
    (∃ w₁, Does d (.exec first) (w.enter env).1 (w.enter env).2 .done w₁ ∧
      Does d (.exec second) (w.enter env).1 w₁ s w') ∨
    s ≠ .done ∧ Does d (.exec first) (w.enter env).1 (w.enter env).2 s w' := by
  -- Two steps lead into the scope, and on to the first statement.
  have henter : Does d (.exec (.block [first, second])) env w s w' ↔
      ComesTo d (onto [.scope env] ⟨.exec first, (w.enter env).1, [.sequence [second]],
        (w.enter env).2⟩) s env w' := by
    rw [Does, ← comesTo_step, ← comesTo_step]
    rfl
  -- The frame of the scope passes every signal on, and restores the environment.
  have hleave : Does d (.exec (.block [first, second])) env w s w' ↔
      ComesTo d ⟨.exec first, (w.enter env).1, [.sequence [second]], (w.enter env).2⟩ s
        (w.enter env).1 w' := by
    have hstack : Returns 0 (w.enter env).1 (w.enter env).1 [.sequence [second]] :=
      ⟨fun _ => Nat.zero_le _, rfl⟩
    rw [henter, comesTo_onto (contained_start _ _ _ _ hstack)]
    constructor
    · rintro ⟨t, w₁, ht, hend⟩
      obtain ⟨rfl, -, rfl⟩ := comesTo_signal.1 hend
      exact ht
    · intro h
      exact ⟨s, w', h, comesTo_signal.2 ⟨rfl, rfl, rfl⟩⟩
  rw [hleave, comesTo_over]
  simp only [Config.resume, comesTo_onDone]
  constructor
  · rintro ⟨t, w₁, ht, ⟨rfl, hend⟩ | ⟨hne, rfl, rfl⟩⟩
    · exact .inl ⟨w₁, ht, comesTo_last.1 hend⟩
    · exact .inr ⟨hne, ht⟩
  · rintro (⟨w₁, hfirst, hsecond⟩ | ⟨hne, hfirst⟩)
    · exact ⟨.done, w₁, hfirst, .inl ⟨rfl, comesTo_last.2 hsecond⟩⟩
    · exact ⟨s, w', hfirst, .inr ⟨hne, rfl, rfl⟩⟩

end Machine

/-! ## The loop as it is written -/

namespace ForLoop

open Machine Config

variable {d : Scoping.Distances} {l : ForLoop} {env : Env} {w w' : World} {s : Signal}

/-- The condition is evaluated before each round; an absent one is true. -/
inductive Tests (d : Scoping.Distances) (l : ForLoop) (env : Env) : World → Signal → World → Prop
  | absent {w : World} : l.condition = none → Tests d l env w (.value (.bool true)) w
  | present {e : Expr} {w w' : World} {s : Signal} :
      l.condition = some e → Does d (.eval e) env w s w' → Tests d l env w s w'

/-- A round runs the body, and if there is an increment, both run in an empty scope. The increment
is evaluated after a body that is done, and after no other. -/
inductive Round (d : Scoping.Distances) (l : ForLoop) (env : Env) : World → Signal → World → Prop
  | body {w w' : World} {s : Signal} :
      l.step = none → Does d (.exec l.body) env w s w' → Round d l env w s w'
  | leaves {e : Expr} {w w' : World} {s : Signal} : l.step = some e →
      Does d (.exec l.body) (w.enter env).1 (w.enter env).2 s w' → s ≠ .done →
      Round d l env w s w'
  | steps {e : Expr} {w w₁ w' : World} {v : Value} : l.step = some e →
      Does d (.exec l.body) (w.enter env).1 (w.enter env).2 .done w₁ →
      Does d (.eval e) (w.enter env).1 w₁ (.value v) w' → Round d l env w .done w'
  | stepFails {e : Expr} {w w₁ w' : World} {error : RuntimeError} : l.step = some e →
      Does d (.exec l.body) (w.enter env).1 (w.enter env).2 .done w₁ →
      Does d (.eval e) (w.enter env).1 w₁ (.raised error) w' →
      Round d l env w (.raised error) w'

/-- Rounds follow each other until the condition is falsy, or until the condition fails or a round
returns or fails. -/
inductive Rounds (d : Scoping.Distances) (l : ForLoop) (env : Env) :
    World → Signal → World → Prop
  | stops {w w' : World} {v : Value} :
      l.Tests d env w (.value v) w' → v.truthy = false → Rounds d l env w .done w'
  | testFails {w w' : World} {error : RuntimeError} :
      l.Tests d env w (.raised error) w' → Rounds d l env w (.raised error) w'
  | leaves {w w₁ w' : World} {v : Value} {s : Signal} : l.Tests d env w (.value v) w₁ →
      v.truthy = true → l.Round d env w₁ s w' → s ≠ .done → Rounds d l env w s w'
  | next {w w₁ w₂ w' : World} {v : Value} {s : Signal} : l.Tests d env w (.value v) w₁ →
      v.truthy = true → l.Round d env w₁ .done w₂ → Rounds d l env w₂ s w' →
      Rounds d l env w s w'

/-- What the loop does: with an initializer all of it happens in one scope, which is new. -/
inductive Runs (d : Scoping.Distances) (l : ForLoop) (env : Env) : World → Signal → World → Prop
  | bare {w w' : World} {s : Signal} :
      l.start = none → l.Rounds d env w s w' → Runs d l env w s w'
  | starts {start : Stmt} {w w₁ w' : World} {s : Signal} : l.start = some start →
      Does d (.exec start) (w.enter env).1 (w.enter env).2 .done w₁ →
      l.Rounds d (w.enter env).1 w₁ s w' → Runs d l env w s w'
  | startFails {start : Stmt} {w w' : World} {s : Signal} : l.start = some start →
      Does d (.exec start) (w.enter env).1 (w.enter env).2 s w' → s ≠ .done →
      Runs d l env w s w'

/-! ## The tree -/

/-- The tree of the body with the increment. -/
def roundTree (l : ForLoop) : Stmt :=
  match l.step with
  | some e => .block [l.body, .expression e]
  | none => l.body

/-- The tree of the condition. -/
def test (l : ForLoop) : Expr := l.condition.getD (.constant (.bool true))

theorem tree_of_none (h : l.start = none) : l.tree = .loop l.test l.roundTree := by
  obtain ⟨start, condition, step, body⟩ := l
  cases h
  rfl

theorem tree_of_some {start : Stmt} (h : l.start = some start) :
    l.tree = .block [start, .loop l.test l.roundTree] := by
  obtain ⟨start, condition, step, body⟩ := l
  cases h
  rfl

theorem does_test : Does d (.eval l.test) env w s w' ↔ l.Tests d env w s w' := by
  unfold test
  constructor
  · intro h
    cases hl : l.condition with
    | none =>
      rw [hl, Does, ← comesTo_step] at h
      obtain ⟨rfl, -, rfl⟩ := comesTo_signal.1 h
      exact .absent hl
    | some e =>
      rw [hl] at h
      exact .present hl h
  · intro h
    cases h with
    | absent hl =>
      rw [hl, Does, ← comesTo_step]
      exact comesTo_signal.2 ⟨rfl, rfl, rfl⟩
    | present hl h =>
      rw [hl]
      exact h

theorem does_round : Does d (.exec l.roundTree) env w s w' ↔ l.Round d env w s w' := by
  unfold roundTree
  cases hl : l.step with
  | none =>
    refine ⟨.body hl, fun h => ?_⟩
    cases h with
    | body _ h => exact h
    | leaves hl' _ _ | steps hl' _ _ | stepFails hl' _ _ => cases hl.symm.trans hl'
  | some e =>
    -- The block of the body and the increment has an empty scope of its own.
    simp only [does_block, does_expression]
    constructor
    · rintro (⟨w₁, hbody, ⟨rfl, v, hv⟩ | ⟨error, rfl, herror⟩⟩ | ⟨hne, hbody⟩)
      · exact .steps hl hbody hv
      · exact .stepFails hl hbody herror
      · exact .leaves hl hbody hne
    · intro h
      cases h with
      | body hl' _ => cases hl.symm.trans hl'
      | leaves _ hbody hne => exact .inr ⟨hne, hbody⟩
      | @steps e' w w₁ w' v hl' hbody hv =>
        cases hl.symm.trans hl'
        exact .inl ⟨w₁, hbody, .inl ⟨rfl, v, hv⟩⟩
      | @stepFails e' w w₁ w' error hl' hbody herror =>
        cases hl.symm.trans hl'
        exact .inl ⟨w₁, hbody, .inr ⟨error, rfl, herror⟩⟩

/-- Before a round the condition is evaluated, and the loop waits for it. -/
def beforeRound (l : ForLoop) (env : Env) (w : World) : Config :=
  ⟨.eval l.test, env, [.loopTest l.test l.roundTree], w⟩

/-- A run of the rounds. The induction is on its number of steps, from one evaluation of the
condition to the next. -/
theorem rounds_of_iterate {n : Nat}
    (hn : (Machine.step d)^[n] (l.beforeRound env w) = ⟨.signal s, env, [], w'⟩) :
    l.Rounds d env w s w' := by
  induction n using Nat.strongRecOn generalizing w with
  | _ n ih =>
    obtain ⟨k, hk, t, w₁, ht, hrest⟩ :=
      comesTo_frame (c := ⟨.eval l.test, env, [], w⟩) (contained_start _ env [] w rfl) hn
    have htest := does_test.1 ht
    rcases Does.of_eval ht with ⟨v, rfl⟩ | ⟨error, rfl⟩
    -- The frame of the test goes on with the value: the loop is done, or a round begins.
    · cases hv : v.truthy with
      | false =>
        simp only [Config.resume, Config.onValue, hv] at hrest
        obtain ⟨rfl, -, rfl⟩ := comesTo_signal.1 ⟨k, hrest⟩
        exact .stops htest hv
      | true =>
        simp only [Config.resume, Config.onValue, hv, if_true] at hrest
        obtain ⟨k', hk', t', w₂, ht', hrest'⟩ := comesTo_frame
          (c := ⟨.exec l.roundTree, env, [], w₁⟩) (contained_start _ env [] w₁ rfl) hrest
        have hround := does_round.1 ht'
        -- After a round that is done, the rest is a shorter run from the next test.
        by_cases hdone : t' = .done
        · subst hdone
          exact .next htest hv hround (ih k' (Nat.lt_trans hk' hk) hrest')
        · simp only [Config.resume] at hrest'
          obtain ⟨hend, -⟩ | ⟨-, rfl, rfl⟩ := comesTo_onDone.1 ⟨k', hrest'⟩
          · exact absurd hend hdone
          · exact .leaves htest hv hround hdone
    · obtain ⟨rfl, -, rfl⟩ := comesTo_signal.1 ⟨k, hrest⟩
      exact .testFails htest

theorem comesTo_of_rounds (h : l.Rounds d env w s w') :
    (l.beforeRound env w).ComesTo d s env w' := by
  -- Each rule of `Rounds` is what the frames of the loop do, one after another.
  induction h with
  | stops htest hv =>
    refine comesTo_over.2 ⟨_, _, does_test.2 htest, ?_⟩
    simp only [Config.resume, Config.onValue, hv]
    exact comesTo_signal.2 ⟨rfl, rfl, rfl⟩
  | testFails htest =>
    exact comesTo_over.2 ⟨_, _, does_test.2 htest, comesTo_signal.2 ⟨rfl, rfl, rfl⟩⟩
  | leaves htest hv hround hne =>
    refine comesTo_over.2 ⟨_, _, does_test.2 htest, ?_⟩
    simp only [Config.resume, Config.onValue, hv, if_true]
    refine comesTo_over.2 ⟨_, _, does_round.2 hround, ?_⟩
    simp only [Config.resume]
    exact comesTo_onDone.2 (.inr ⟨hne, rfl, rfl⟩)
  | next htest hv hround _ ih =>
    refine comesTo_over.2 ⟨_, _, does_test.2 htest, ?_⟩
    simp only [Config.resume, Config.onValue, hv, if_true]
    exact comesTo_over.2 ⟨_, _, does_round.2 hround, ih⟩

theorem does_loop : Does d (.exec (.loop l.test l.roundTree)) env w s w' ↔
    l.Rounds d env w s w' := by
  rw [Does, ← comesTo_step]
  exact ⟨fun ⟨_, hn⟩ => rounds_of_iterate hn, comesTo_of_rounds⟩

/-- The tree by itself does what the loop does. -/
theorem does_tree : Does d (.exec l.tree) env w s w' ↔ l.Runs d env w s w' := by
  cases hl : l.start with
  | none =>
    rw [tree_of_none hl, does_loop]
    refine ⟨.bare hl, fun h => ?_⟩
    cases h with
    | bare _ h => exact h
    | starts hl' _ _ | startFails hl' _ _ => cases hl.symm.trans hl'
  | some start =>
    rw [tree_of_some hl, does_block]
    simp only [does_loop]
    constructor
    · rintro (⟨w₁, hstart, hrounds⟩ | ⟨hne, hstart⟩)
      · exact .starts hl hstart hrounds
      · exact .startFails hl hstart hne
    · intro h
      cases h with
      | bare hl' _ => cases hl.symm.trans hl'
      | starts hl' hstart hrounds =>
        cases hl.symm.trans hl'
        exact .inl ⟨_, hstart, hrounds⟩
      | startFails hl' hstart hne =>
        cases hl.symm.trans hl'
        exact .inr ⟨hne, hstart⟩

/-- A `for` loop runs as it is written. A statement that begins with `for` is read by its clauses,
and becomes the tree of this loop. Wherever in a run the tree is executed, in whatever environment
and world and over whatever frames, it comes back with a signal, in the environment in which it
began and in a world, exactly if the loop as it is written ends with this signal in this world. -/
theorem runs_as_written :
    (∀ n lexeme literal line tokens nextId errors,
      Grammar.statement (n + 2) ⟨⟨.forWord, lexeme, literal, line⟩ :: tokens, nextId, errors⟩ =
        (ForLoop.tree <$> Grammar.forClauses n) ⟨tokens, nextId, errors⟩) ∧
      ∀ (l : ForLoop) (d : Scoping.Distances) (env : Env) (stack : List Frame) (w : World)
        (s : Signal) (w' : World),
        (∃ n, Config.ComesBack ⟨.exec l.tree, env, stack, w⟩ d stack n s ∧
          ((Machine.step d)^[n] ⟨.exec l.tree, env, stack, w⟩).env = env ∧
          ((Machine.step d)^[n] ⟨.exec l.tree, env, stack, w⟩).world = w') ↔
        l.Runs d env w s w' := by
  constructor
  · intro n lexeme literal line tokens nextId errors
    exact congrFun (Grammar.forLoop_eq n) ⟨tokens, nextId, errors⟩
  · intro l d env stack w s w'
    have hstep : Machine.step d ⟨.exec l.tree, env, stack, w⟩ =
        (Machine.step d ⟨.exec l.tree, env, [], w⟩).onto stack :=
      step_onto (c := ⟨.exec l.tree, env, [], w⟩) rfl
    rw [comesBack_iff hstep, comesTo_step]
    exact does_tree

end ForLoop

end Lox
