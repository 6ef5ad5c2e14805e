import Lox.Proofs.Machine.Outcomes
import Lox.Proofs.Session.Lookup

/-!
# A return stays in its function

The machine has its own notion of being inside a function: the nearest call below takes a return.
The check of scopes has another: the kind of the function around a place, which is put back when the
walk leaves the function. The two agree. A return that no call takes would have to stand in the
statement itself, outside all functions declared there (`Stmt.Returns`), and this is an offence
(`Stmt.Returns.offence`).

Main statement: `Interpreter.returns_confined`.
-/

namespace Lox

open Scoping Machine

/-! ## Returns outside functions are offences -/

theorem Scoping.Visit.not_clean_ret {ctx : Context} (hctx : ctx.function = .outside)
    (keyword : Token) (value : Option Expr) : ¬(Visit.ret ctx keyword value).Clean := by
  intro hclean
  simp [Visit.Clean, Visit.findings, Context.misplacedReturn, hctx, offences] at hclean

/-- Where a statement stands outside all functions, so does a return in it. -/
theorem Stmt.Returns.offence {s : Stmt} (h : s.Returns) {ctx : Context}
    (hctx : ctx.function = .outside) : ∃ v ∈ s.visits ctx, ¬v.Clean := by
  induction h generalizing ctx with
  | ret keyword value =>
    exact ⟨_, List.mem_cons_self, Visit.not_clean_ret hctx keyword value⟩
  | @block s ss hs _ ih =>
    obtain ⟨names, hsub⟩ := Stmt.exists_visits_subset hs ctx.enter
    obtain ⟨v, hv, hdirty⟩ := ih ((ctx.enter.defineAll_function names).trans hctx)
    exact ⟨v, hsub hv, hdirty⟩
  | @thenBranch condition thenBranch elseBranch _ ih =>
    obtain ⟨v, hv, hdirty⟩ := ih hctx
    refine ⟨v, ?_, hdirty⟩
    cases elseBranch with
    | none => exact List.mem_append_right _ hv
    | some other => exact List.mem_append_left _ (List.mem_append_right _ hv)
  | @elseBranch condition thenBranch elseBranch _ ih =>
    have hafter := (ctx.defineAll_function thenBranch.declared).trans hctx
    obtain ⟨v, hv, hdirty⟩ := ih hafter
    exact ⟨v, List.mem_append_right _ hv, hdirty⟩
  | loop _ ih =>
    obtain ⟨v, hv, hdirty⟩ := ih hctx
    exact ⟨v, List.mem_append_right _ hv, hdirty⟩

/-- A program without offences has no return outside its functions. -/
theorem Scoping.not_returns_of_check {ss : List Stmt} (h : offences (check ss) = []) :
    ∀ s ∈ ss, ¬s.Returns := by
  intro s hs hr
  rw [check, Stmt.findingsAll_eq, offences_flatMap_eq_nil] at h
  obtain ⟨names, hsub⟩ := Stmt.exists_visits_subset hs Context.top
  obtain ⟨v, hv, hdirty⟩ := hr.offence (Context.defineAll_function .top names)
  exact hdirty (h v (hsub hv))

/-! ## Statements and programs -/

namespace Interpreter

variable {i i' : Interpreter} {fuel : Nat} {s : Stmt} {ss : List Stmt} {signal : Signal}

/-- A statement with a return in it runs as a body does, and any other for its effect. -/
theorem ends_execute {m : Mode} (hs : IsWork m s) (h : i.execute fuel s = some (signal, i')) :
    signal.Ends m := by
  obtain ⟨-, n, c, rfl, hres, -, -⟩ := execute_eq_some h
  have hstart : (i.start (.exec s)).Ends m := ⟨m, hs, rfl⟩
  exact (hstart.iterate n).ended hres

theorem isWork_effect (hs : ¬s.Returns) : IsWork .effect s :=
  ⟨Mode.noConfusion, fun hr => absurd hr hs⟩

theorem execute_of_not_returns (hs : ¬s.Returns) (h : i.execute fuel s = some (signal, i')) :
    signal = .done ∨ ∃ e, signal = .raised e := by
  have hends := ends_execute (isWork_effect hs) h
  cases signal with
  | value v => cases hends
  | done => exact .inl rfl
  | returned v => cases hends
  | raised e => exact .inr ⟨e, rfl⟩

/-- Each statement is executed until it is done, up to the first that raises an error. -/
inductive Finishes (fuel : Nat) :
    Interpreter → List Stmt → Option RuntimeError → Interpreter → Prop
  | nil {i : Interpreter} : Finishes fuel i [] (i.world.sink.flush.map .sink) i
  | done {i i' i'' : Interpreter} {s : Stmt} {rest : List Stmt} {error : Option RuntimeError} :
      i.execute fuel s = some (.done, i') → Finishes fuel i' rest error i'' →
      Finishes fuel i (s :: rest) error i''
  | raised {i i' : Interpreter} {s : Stmt} {rest : List Stmt} {e : RuntimeError} :
      i.execute fuel s = some (.raised e, i') → Finishes fuel i (s :: rest) (some e) i'

/-- The moments of a run at which a statement has ended. -/
theorem Passes.ended (hss : ∀ s ∈ ss, ¬s.Returns) {c : Config} (hp : i.Passes ss c)
    (hres : c.result? = some signal) : signal = .done ∨ ∃ e, signal = .raised e := by
  induction hp with
  | @here i s rest n =>
    have hrun : run i.distances n (i.start (.exec s)) = some (signal, _) :=
      run_eq_some_iff.2 ⟨n, Nat.le_refl n, rfl, hres⟩
    have hexec : i.execute n s = some (signal, _) := Option.map_eq_some_iff.2 ⟨_, hrun, rfl⟩
    exact execute_of_not_returns (hss s List.mem_cons_self) hexec
  | later _ _ _ ih => exact ih (fun s hs => hss s (List.mem_cons_of_mem _ hs)) hres

theorem finishes_interpret (hss : ∀ s ∈ ss, ¬s.Returns) {error : Option RuntimeError}
    (h : i.interpret fuel ss = some (error, i')) : i.Finishes fuel ss error i' := by
  induction ss generalizing i with
  | nil =>
    obtain ⟨rfl, rfl⟩ := Prod.mk.inj (Option.some.inj h)
    exact .nil
  | cons s rest ih =>
    obtain ⟨hs, hrest⟩ := List.forall_mem_cons.1 hss
    rcases interpret_cons h with ⟨e, j, he, heq⟩ | ⟨signal, j, he, hne, hinterpret⟩
    · obtain ⟨rfl, rfl⟩ := Prod.mk.inj heq
      exact .raised he
    · rcases execute_of_not_returns hs he with rfl | ⟨e, rfl⟩
      · exact .done he (ih hrest hinterpret)
      · exact absurd rfl (hne e)

/-- A return never escapes its function. Whatever statement an interpreter executes, it ends with a
return only if there is one in the statement that does not belong to a function or a method declared
there. Hence, whenever the check of scopes has nothing against a program, each of its statements
ends by being done or by raising an error, and the run of the program goes through them one by one,
each until it is done, up to the first error. -/
theorem returns_confined :
    (∀ {i i' : Interpreter} {fuel : Nat} {s : Stmt} {signal : Signal},
      i.execute fuel s = some (signal, i') →
        (∀ v, signal ≠ .value v) ∧ ∀ v, signal = .returned v → s.Returns) ∧
      ∀ {ss : List Stmt}, offences (check ss) = [] → ∀ {i : Interpreter},
        (∀ {c signal}, i.Passes ss c → c.result? = some signal →
          signal = .done ∨ ∃ e, signal = .raised e) ∧
        ∀ {fuel error i'}, i.interpret fuel ss = some (error, i') →
          i.Finishes fuel ss error i' := by
  constructor
  · intro i i' fuel s signal h
    constructor
    · rintro v rfl
      have hbody : IsWork .body s := ⟨Mode.noConfusion, fun _ => rfl⟩
      cases ends_execute hbody h
    · rintro v rfl
      by_contra hs
      cases ends_execute (isWork_effect hs) h
  · intro ss hcheck i
    have hss := not_returns_of_check hcheck
    exact ⟨fun hp hres => hp.ended hss hres, fun h => finishes_interpret hss h⟩

/-- A function returns from within a loop in a branch, and what is left of the program is executed.
The loop by itself, with the condition of the branch already true, ends with the return. -/
theorem returns_confined_in_loop :
    let source :=
      "fun f(n) { while (true) { if (n) { return n; } n = true; } } var a = f(false); a();"
    let program := (Session.still.parsed source).statements
    let keyword : Token := ⟨.returnWord, "return", none, 1⟩
    let loop := Stmt.loop (.constant (.bool true)) (.block [.ret keyword none])
    (∃ error i', (Session.still.loaded source).interpret 60 program = some (error, i') ∧
        error.isSome ∧ (Session.still.loaded source).Finishes 60 program error i') ∧
      ∃ v i', Session.still.interpreter.execute 9 loop = some (.returned v, i') ∧ loop.Returns := by
  intro source program keyword loop
  constructor
  · have hrun : ((Session.still.loaded source).interpret 60 program).map (·.1.isSome) =
        some true := by decide +kernel
    have hcheck : offences (check program) = [] := by decide +kernel
    obtain ⟨⟨error, i'⟩, h, herror⟩ := Option.map_eq_some_iff.1 hrun
    exact ⟨error, i', h, herror, (returns_confined.2 hcheck).2 h⟩
  · have hexec : Session.still.interpreter.execute 9 loop = some (.returned .nil, _) := rfl
    exact ⟨.nil, _, hexec, (returns_confined.1 hexec).2 .nil rfl⟩

end Interpreter

end Lox
