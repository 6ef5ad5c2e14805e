import Lox.Proofs.Machine.Run

/-!
# How work ends

An expression ends with a value, a statement is done, and the body of a function is done or
returns; each of them may raise an error instead. A piece of work is one of these three (`Mode`),
and so is what a frame makes of it: a call waits for a body and gives a value, a `return` waits for
a value and ends a body. The frames of a stack fit together down to what the whole run is to end as
(`Awaits`), and every step keeps it so (`Config.Ends.step`).

A statement is a body in this sense only if there is a return in it that does not belong to a
function declared in it (`Stmt.Returns`). Hence no other statement ends with a return
(`Config.Ends.ended`), whatever functions it calls.
-/

namespace Lox

/-- There is a return in the statement, outside the functions and methods declared in it. -/
inductive Stmt.Returns : Stmt → Prop
  | ret (keyword : Token) (value : Option Expr) : Returns (.ret keyword value)
  | block {s : Stmt} {ss : List Stmt} : s ∈ ss → s.Returns → Returns (.block ss)
  | thenBranch {condition : Expr} {thenBranch : Stmt} {elseBranch : Option Stmt} :
      thenBranch.Returns → Returns (.branch condition thenBranch elseBranch)
  | elseBranch {condition : Expr} {thenBranch elseBranch : Stmt} :
      elseBranch.Returns → Returns (.branch condition thenBranch (some elseBranch))
  | loop {condition : Expr} {body : Stmt} : body.Returns → Returns (.loop condition body)

namespace Machine

/-- What a piece of work is done for: the value of an expression, the effect of a statement, or the
effect and the result of a body, which may return. -/
inductive Mode where
  | value
  | effect
  | body

/-- The signals with which work of a mode may end. -/
def Signal.Ends (m : Mode) : Signal → Prop
  | .value _ => m = .value
  | .done => m ≠ .value
  | .returned _ => m = .body
  | .raised _ => True

/-- A statement is work of a mode. -/
structure IsWork (m : Mode) (s : Stmt) : Prop where
  not_value : m ≠ .value
  returns : s.Returns → m = .body

def Control.Ends (m : Mode) : Control → Prop
  | .eval _ => m = .value
  | .exec s => IsWork m s
  | .signal s => s.Ends m

/-- A frame that waits for work of one mode and is itself part of work of another. -/
def Frame.Turns (inner outer : Mode) : Frame → Prop
  | .unary _ | .binaryLeft _ _ | .binaryRight _ _ | .logical _ _ | .assign _ _ | .callee _ _
  | .argument _ _ _ _ | .get _ | .setObject _ _ | .setValue _ _ | .construct _ =>
    inner = .value ∧ outer = .value
  | .discard | .print | .define _ | .superclass _ _ _ => inner = .value ∧ outer ≠ .value
  | .ret => inner = .value ∧ outer = .body
  | .branch thenBranch elseBranch =>
    inner = .value ∧ IsWork outer thenBranch ∧ ∀ s ∈ elseBranch, IsWork outer s
  | .loopTest _ body => inner = .value ∧ IsWork outer body
  | .loopBody _ body => inner = outer ∧ IsWork outer body
  | .sequence ss => inner = outer ∧ outer ≠ .value ∧ ∀ s ∈ ss, IsWork outer s
  | .scope _ => inner = outer ∧ outer ≠ .value
  | .call _ _ => inner = .body ∧ outer = .value

/-- The frames wait for work of a mode, and turn it into what is to be the end of everything. -/
def Awaits (goal : Mode) : Mode → List Frame → Prop
  | m, [] => m = goal
  | m, f :: rest => ∃ outer, f.Turns m outer ∧ Awaits goal outer rest

variable {goal m : Mode} {c : Config} {d : Scoping.Distances}

/-- A block is work of the mode that its statements are. -/
theorem IsWork.block {ss : List Stmt} (h : IsWork m (.block ss)) : ∀ s ∈ ss, IsWork m s :=
  fun _ hs => ⟨h.not_value, fun hr => h.returns (.block hs hr)⟩

namespace Config

variable (goal) in
/-- The work at hand and the frames fit together. -/
def Ends (c : Config) : Prop := ∃ m, c.control.Ends m ∧ Awaits goal m c.stack

theorem ends_signal (h : Awaits goal m c.stack) {s : Signal} (hs : s.Ends m) :
    (c.signal s).Ends goal :=
  ⟨m, hs, h⟩

theorem ends_raise (h : Awaits goal m c.stack) (site : Token) (fault : RuntimeFault) :
    (c.raise site fault).Ends goal :=
  ends_signal h trivial

theorem ends_done (h : Awaits goal m c.stack) (hm : m ≠ .value) : c.done.Ends goal :=
  ends_signal h hm

theorem ends_evalThen (h : Awaits goal m c.stack) (e : Expr) {f : Frame} (hf : f.Turns .value m) :
    (c.evalThen e f).Ends goal :=
  ⟨.value, rfl, m, hf, h⟩

theorem ends_exec (h : Awaits goal m c.stack) {s : Stmt} (hs : IsWork m s) :
    Ends goal { c with control := .exec s } :=
  ⟨m, hs, h⟩

theorem ends_execThen (h : Awaits goal m c.stack) {s : Stmt} (hs : IsWork m s) {f : Frame}
    (hf : f.Turns m m) : (c.execThen s f).Ends goal :=
  ⟨m, hs, m, hf, h⟩

/-! ## Values -/

section Values

variable (h : Awaits goal .value c.stack)
include h

theorem ends_give (v : Value) : (c.give v).Ends goal := ends_signal h rfl

theorem ends_giveOr (site : Token) (r : Except RuntimeFault Value) :
    (c.giveOr site r).Ends goal := by
  cases r with
  | ok v => exact ends_give h v
  | error fault => exact ends_raise h site fault

theorem ends_eval (e : Expr) : Ends goal { c with control := .eval e } := ⟨.value, rfl, h⟩

theorem ends_read (id : NodeId) (name : Token) : (c.read d id name).Ends goal := by
  unfold Config.read
  split
  · exact ends_give h _
  · exact ends_raise h _ _

theorem ends_assign (id : NodeId) (name : Token) (v : Value) :
    (c.assign d id name v).Ends goal := by
  unfold Config.assign
  split
  · exact ⟨.value, rfl, h⟩
  · exact ends_raise h _ _

theorem ends_giveMethod (method : Closure) (o : Object) : (c.giveMethod method o).Ends goal :=
  ⟨.value, rfl, h⟩

theorem ends_superMethod (id : NodeId) (keyword method : Token) :
    (c.superMethod d id keyword method).Ends goal := by
  unfold Config.superMethod
  split
  · exact ends_raise h _ _
  · split
    · split
      · split
        · exact ends_giveMethod h _ _
        · exact ends_raise h _ _
      · exact ends_raise h _ _
    · exact ends_raise h _ _

theorem ends_property (name : Token) (v : Value) : (c.property name v).Ends goal := by
  cases v with
  | object o =>
    rw [Config.property]
    split
    · exact ends_give h _
    · split
      · exact ends_giveMethod h _ o
      · exact ends_raise h _ _
  | _ => exact ends_raise h _ _

/-- The body of a function may return, and the call gives a value. -/
theorem ends_enter (code : Closure) (arguments : List Value) :
    (c.enter code arguments).Ends goal := by
  refine ⟨.body, Mode.noConfusion, .body, ⟨rfl, Mode.noConfusion, ?_⟩, .value, ⟨rfl, rfl⟩, h⟩
  exact fun _ _ => ⟨Mode.noConfusion, fun _ => rfl⟩

theorem ends_finish (code : Closure) (v : Value) : (c.finish code v).Ends goal := by
  unfold Config.finish
  split
  · split
    · exact ends_give h _
    · exact ends_raise h _ _
  · exact ends_give h v

theorem ends_instantiate (k : Class) (arguments : List Value) :
    (c.instantiate k arguments).Ends goal := by
  unfold Config.instantiate
  dsimp only
  split
  · exact ⟨.value, rfl, h⟩
  · apply ends_enter
    exact ⟨.value, ⟨rfl, rfl⟩, h⟩

theorem ends_call (callee : Value) (paren : Token) (arguments : List Value) :
    (c.call callee paren arguments).Ends goal := by
  unfold Config.call
  split
  · exact ends_raise h _ _
  · split
    · cases callee with
      | builtin f =>
        cases f with
        | clock => exact ⟨.value, rfl, h⟩
      | function id code => exact ends_enter h code arguments
      | class_ k => exact ends_instantiate h k arguments
      | _ => exact ends_raise h _ _
    · exact ends_raise h _ _

theorem ends_callWith (callee : Value) (paren : Token) (before : List Value) (after : List Expr) :
    (c.callWith callee paren before after).Ends goal := by
  cases after with
  | nil => exact ends_call h callee paren before
  | cons e after => exact ends_evalThen h e ⟨rfl, rfl⟩

theorem ends_startExpr (e : Expr) : (c.startExpr d e).Ends goal := by
  cases e with
  | constant k => exact ends_give h _
  | grouping inner => exact ends_eval h inner
  | var id name => exact ends_read h id name
  | this id keyword => exact ends_read h id keyword
  | super id keyword method => exact ends_superMethod h id keyword method
  | _ => exact ends_evalThen h _ ⟨rfl, rfl⟩

end Values

/-! ## Statements -/

section Statements

variable (h : Awaits goal m c.stack) (hm : m ≠ .value)
include h hm

theorem ends_print (v : Value) : (c.print v).Ends goal := by
  simp only [Config.print, Config.write]
  split
  · next heq =>
    obtain ⟨-, rfl⟩ := Prod.mk.inj heq
    exact ⟨m, hm, h⟩
  · next heq =>
    obtain ⟨-, rfl⟩ := Prod.mk.inj heq
    exact ⟨m, trivial, h⟩

theorem ends_runAll {ss : List Stmt} (hss : ∀ s ∈ ss, IsWork m s) : (c.runAll ss).Ends goal := by
  cases ss with
  | nil => exact ends_done h hm
  | cons s rest =>
    obtain ⟨hs, hrest⟩ := List.forall_mem_cons.1 hss
    exact ends_execThen h hs ⟨rfl, hm, hrest⟩

end Statements

theorem ends_startStmt (h : Awaits goal m c.stack) {s : Stmt} (hs : IsWork m s) :
    (c.startStmt s).Ends goal := by
  have hm := hs.not_value
  cases s with
  | expression e => exact ends_evalThen h e ⟨rfl, hm⟩
  | print e => exact ends_evalThen h e ⟨rfl, hm⟩
  | varDecl name value =>
    cases value with
    | none => exact ⟨m, hm, h⟩
    | some e => exact ends_evalThen h e ⟨rfl, hm⟩
  | block ss => exact ⟨m, hm, m, ⟨rfl, hm, hs.block⟩, m, ⟨rfl, hm⟩, h⟩
  | branch condition thenBranch elseBranch =>
    refine ends_evalThen h condition ⟨rfl, ⟨hm, fun hr => hs.returns (.thenBranch hr)⟩, ?_⟩
    rintro other rfl
    exact ⟨hm, fun hr => hs.returns (.elseBranch hr)⟩
  | loop condition body =>
    exact ends_evalThen h condition ⟨rfl, hm, fun hr => hs.returns (.loop hr)⟩
  | funDecl f => exact ⟨m, hm, h⟩
  | ret keyword value =>
    -- A `return` is one of the statement itself, so a body waits for it.
    have hbody : m = .body := hs.returns (.ret keyword value)
    cases value with
    | none => exact ends_signal h hbody
    | some e => exact ends_evalThen h e ⟨rfl, hbody⟩
  | classDecl name superclass methods =>
    cases superclass with
    | none => exact ⟨m, hm, h⟩
    | some e => exact ends_evalThen h e ⟨rfl, hm⟩

/-! ## Going on after a signal -/

/-- A frame that waits for a value gets one, or passes an error on. -/
theorem ends_onValue (h : Awaits goal m c.stack) {s : Signal} (hs : s.Ends .value)
    {go : Config → Value → Config} (hgo : ∀ v, (go c v).Ends goal) :
    (c.onValue s go).Ends goal := by
  cases s with
  | value v => exact hgo v
  | done => exact absurd rfl hs
  | returned v => cases hs
  | raised e => exact ends_signal h trivial

/-- A frame that waits for a statement goes on, or passes a return or an error on. -/
theorem ends_onDone (h : Awaits goal m c.stack) {s : Signal} (hs : s.Ends m)
    {go : Config → Config} (hgo : (go c).Ends goal) : (c.onDone s go).Ends goal := by
  cases s with
  | done => exact hgo
  | _ => exact ends_signal h hs

/-- Handing a signal to a frame. -/
theorem ends_resume {inner : Mode} (h : Awaits goal m c.stack) {s : Signal} (hs : s.Ends inner)
    {f : Frame} (hf : f.Turns inner m) : (c.resume d s f).Ends goal := by
  unfold Config.resume
  cases f with
  | unary op =>
    obtain ⟨rfl, rfl⟩ := hf
    exact ends_onValue h hs fun v => ends_giveOr h _ _
  | binaryLeft op right =>
    obtain ⟨rfl, rfl⟩ := hf
    exact ends_onValue h hs fun v => ends_evalThen h right ⟨rfl, rfl⟩
  | binaryRight left op =>
    obtain ⟨rfl, rfl⟩ := hf
    exact ends_onValue h hs fun v => ends_giveOr h _ _
  | logical op right =>
    obtain ⟨rfl, rfl⟩ := hf
    apply ends_onValue h hs
    intro v
    split
    · exact ends_give h v
    · exact ends_eval h right
  | assign id name =>
    obtain ⟨rfl, rfl⟩ := hf
    exact ends_onValue h hs fun v => ends_assign h id name v
  | callee paren arguments =>
    obtain ⟨rfl, rfl⟩ := hf
    exact ends_onValue h hs fun v => ends_callWith h v paren [] arguments
  | argument callee paren before after =>
    obtain ⟨rfl, rfl⟩ := hf
    exact ends_onValue h hs fun v => ends_callWith h callee paren _ after
  | get name =>
    obtain ⟨rfl, rfl⟩ := hf
    exact ends_onValue h hs fun v => ends_property h name v
  | setObject name value =>
    obtain ⟨rfl, rfl⟩ := hf
    apply ends_onValue h hs
    intro v
    cases v with
    | object o => exact ends_evalThen h value ⟨rfl, rfl⟩
    | _ => exact ends_raise h _ _
  | setValue o name =>
    obtain ⟨rfl, rfl⟩ := hf
    exact ends_onValue h hs fun v => ⟨.value, rfl, h⟩
  | discard =>
    obtain ⟨rfl, hm⟩ := hf
    exact ends_onValue h hs fun v => ends_done h hm
  | print =>
    obtain ⟨rfl, hm⟩ := hf
    exact ends_onValue h hs fun v => ends_print h hm v
  | define name =>
    obtain ⟨rfl, hm⟩ := hf
    exact ends_onValue h hs fun v => ⟨m, hm, h⟩
  | branch thenBranch elseBranch =>
    -- Either branch is work of the mode that the whole statement is.
    obtain ⟨rfl, hthen, helse⟩ := hf
    apply ends_onValue h hs
    intro v
    split
    · exact ends_exec h hthen
    · cases elseBranch with
      | none => exact ends_done h hthen.not_value
      | some other => exact ends_exec h (helse other rfl)
  | loopTest condition body =>
    obtain ⟨rfl, hbody⟩ := hf
    apply ends_onValue h hs
    intro v
    split
    · exact ends_execThen h hbody ⟨rfl, hbody⟩
    · exact ends_done h hbody.not_value
  | loopBody condition body =>
    obtain ⟨rfl, hbody⟩ := hf
    exact ends_onDone h hs (ends_evalThen h condition ⟨rfl, hbody⟩)
  | sequence ss =>
    obtain ⟨rfl, hm, hss⟩ := hf
    exact ends_onDone h hs (ends_runAll h hm hss)
  | ret =>
    obtain ⟨rfl, rfl⟩ := hf
    exact ends_onValue h hs fun v => ends_signal h rfl
  | superclass name site methods =>
    obtain ⟨rfl, hm⟩ := hf
    apply ends_onValue h hs
    intro v
    cases v with
    | class_ parent => exact ⟨m, hm, h⟩
    | _ => exact ends_raise h _ _
  | scope saved =>
    -- A scope passes every signal on, and so belongs to work of the same mode.
    obtain ⟨rfl, -⟩ := hf
    exact ⟨_, hs, h⟩
  | call code saved =>
    obtain ⟨rfl, rfl⟩ := hf
    cases s with
    -- A body ends with a return or runs out; a value is no end of a body.
    | done => exact ends_finish (c := { c with env := saved }) h code .nil
    | returned v => exact ends_finish (c := { c with env := saved }) h code v
    | value v => cases hs
    | raised e => exact ⟨.value, trivial, h⟩
  | construct o =>
    obtain ⟨rfl, rfl⟩ := hf
    exact ends_onValue h hs fun v => ends_give h _

/-- A step keeps the work and the frames together. -/
theorem Ends.step (hc : c.Ends goal) : (step d c).Ends goal := by
  obtain ⟨control, env, stack, world⟩ := c
  obtain ⟨m, hcontrol, hstack⟩ := hc
  cases control with
  | eval e =>
    obtain rfl := hcontrol
    exact ends_startExpr (c := ⟨_, env, stack, world⟩) hstack e
  | exec s => exact ends_startStmt (c := ⟨_, env, stack, world⟩) hstack hcontrol
  | signal s =>
    cases stack with
    | nil => exact ⟨m, hcontrol, hstack⟩
    | cons f stack =>
      obtain ⟨outer, hf, hrest⟩ := hstack
      exact ends_resume (c := ⟨_, env, stack, world⟩) hrest hcontrol hf

/-- So does every run. -/
theorem Ends.iterate (hc : c.Ends goal) (n : Nat) : ((Machine.step d)^[n] c).Ends goal := by
  induction n generalizing c with
  | zero => exact hc
  | succ n ih => exact ih hc.step

/-- A run ends with one of the signals that it was to end with. -/
theorem Ends.ended (hc : c.Ends goal) {s : Signal} (hres : c.result? = some s) : s.Ends goal := by
  obtain ⟨hcontrol, hstack⟩ := result?_eq_some.1 hres
  obtain ⟨m, hm, hawaits⟩ := hc
  -- With no frame left, the mode at hand is the goal.
  rw [hstack] at hawaits
  obtain rfl := hawaits
  rwa [hcontrol] at hm

end Config

end Machine

end Lox
