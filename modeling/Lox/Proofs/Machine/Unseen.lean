import Lox.Proofs.Machine.Run

/-!
# What a step does not look at

A step looks at the frame on top only, and what is in the sink makes a difference to a `print` only.
So a configuration may stand amid other frames and with another sink (`Config.amid`): as long as
there is something left to do and it is not to print, a step takes it to where it would come by
itself, amid the same frames and with the sink changed the same way (`Config.step_amid`).
-/

namespace Lox.Machine

variable {base : List Frame} {g : Sink → Sink} {c : Config} {d : Scoping.Distances}

namespace Config

/-- The configuration with more frames below and another sink. -/
def amid (base : List Frame) (g : Sink → Sink) (c : Config) : Config :=
  { c with stack := c.stack ++ base, world := { c.world with sink := g c.world.sink } }

theorem read_amid (id : NodeId) (name : Token) :
    (c.amid base g).read d id name = (c.read d id name).amid base g := by
  simp only [Config.read, amid, Config.heap]
  split <;> rfl

theorem assign_amid (id : NodeId) (name : Token) (v : Value) :
    (c.amid base g).assign d id name v = (c.assign d id name v).amid base g := by
  simp only [Config.assign, amid, Config.heap]
  split <;> rfl

theorem superMethod_amid (id : NodeId) (keyword method : Token) :
    (c.amid base g).superMethod d id keyword method =
      (c.superMethod d id keyword method).amid base g := by
  simp only [Config.superMethod, amid, Config.heap]
  split
  · rfl
  · split
    · split
      · split <;> rfl
      · rfl
    · rfl

theorem property_amid (name : Token) (v : Value) :
    (c.amid base g).property name v = (c.property name v).amid base g := by
  cases v with
  | object o =>
    simp only [Config.property, amid, Config.heap]
    split
    · rfl
    · split <;> rfl
  | _ => rfl

theorem finish_amid (code : Closure) (v : Value) :
    (c.amid base g).finish code v = (c.finish code v).amid base g := by
  simp only [Config.finish, amid, Config.heap]
  split
  · split <;> rfl
  · rfl

theorem call_amid (callee : Value) (paren : Token) (arguments : List Value) :
    (c.amid base g).call callee paren arguments =
      (c.call callee paren arguments).amid base g := by
  unfold Config.call
  split
  · rfl
  · split
    · cases callee with
      | builtin f =>
        cases f with
        | clock => rfl
      | class_ k =>
        simp only [Config.invoke, Config.instantiate]
        split <;> rfl
      | _ => rfl
    · rfl

theorem startExpr_amid (e : Expr) :
    (c.amid base g).startExpr d e = (c.startExpr d e).amid base g := by
  cases e with
  | var id name => exact read_amid id name
  | this id keyword => exact read_amid id keyword
  | super id keyword method => exact superMethod_amid id keyword method
  | _ => rfl

theorem startStmt_amid (s : Stmt) :
    (c.amid base g).startStmt s = (c.startStmt s).amid base g := by
  cases s with
  | varDecl name value => cases value <;> rfl
  | ret keyword value => cases value <;> rfl
  | classDecl name superclass methods => cases superclass <;> rfl
  | _ => rfl

theorem onValue_amid {go : Config → Value → Config} {s : Signal}
    (hgo : ∀ v, go (c.amid base g) v = (go c v).amid base g) :
    (c.amid base g).onValue s go = (c.onValue s go).amid base g := by
  cases s with
  | value v => exact hgo v
  | _ => rfl

theorem onDone_amid {go : Config → Config} {s : Signal}
    (hgo : go (c.amid base g) = (go c).amid base g) :
    (c.amid base g).onDone s go = (c.onDone s go).amid base g := by
  cases s with
  | done => exact hgo
  | _ => rfl

theorem giveOr_amid (site : Token) (r : Except RuntimeFault Value) :
    (c.amid base g).giveOr site r = (c.giveOr site r).amid base g := by
  cases r <;> rfl

theorem callWith_amid (callee : Value) (paren : Token) (before : List Value) (after : List Expr) :
    (c.amid base g).callWith callee paren before after =
      (c.callWith callee paren before after).amid base g := by
  cases after with
  | nil => exact call_amid callee paren before
  | cons e after => rfl

/-- Only a frame that prints looks at the sink, and only when it gets a value. -/
theorem resume_amid {s : Signal} {f : Frame} (hprint : ∀ v, s = .value v → f ≠ .print) :
    (c.amid base g).resume d s f = (c.resume d s f).amid base g := by
  unfold Config.resume
  cases f with
  | unary op => exact onValue_amid fun v => giveOr_amid op _
  | binaryLeft op right => exact onValue_amid fun v => rfl
  | binaryRight left op => exact onValue_amid fun v => giveOr_amid op _
  | logical op right =>
    apply onValue_amid
    intro v
    split <;> rfl
  | assign id name => exact onValue_amid fun v => assign_amid id name v
  | callee paren arguments => exact onValue_amid fun v => callWith_amid v paren [] arguments
  | argument callee paren before after =>
    exact onValue_amid fun v => callWith_amid callee paren _ after
  | get name => exact onValue_amid fun v => property_amid name v
  | setObject name value =>
    apply onValue_amid
    intro v
    cases v <;> rfl
  | setValue o name => exact onValue_amid fun v => rfl
  | discard => exact onValue_amid fun v => rfl
  -- The one frame that looks at the sink gets no value here.
  | print =>
    cases s with
    | value v => exact absurd rfl (hprint v rfl)
    | _ => rfl
  | define name => exact onValue_amid fun v => rfl
  | branch thenBranch elseBranch =>
    apply onValue_amid
    intro v
    split
    · rfl
    · cases elseBranch <;> rfl
  | loopTest condition body =>
    apply onValue_amid
    intro v
    split <;> rfl
  | loopBody condition body => exact onDone_amid rfl
  | sequence ss =>
    apply onDone_amid
    cases ss <;> rfl
  | ret => exact onValue_amid fun v => rfl
  | superclass name site methods =>
    apply onValue_amid
    intro v
    cases v <;> rfl
  | scope saved => rfl
  | call code saved =>
    cases s with
    | done => exact finish_amid (c := { c with env := saved }) code .nil
    | returned v => exact finish_amid (c := { c with env := saved }) code v
    | value v => rfl
    | raised e => rfl
  | construct o => exact onValue_amid fun v => rfl

/-- The value that the machine is about to print. -/
def printed? (c : Config) : Option Value :=
  match c.control, c.stack with
  | .signal (.value v), .print :: _ => some v
  | _, _ => none

theorem printed?_eq_some {v : Value} : c.printed? = some v ↔
    c.control = .signal (.value v) ∧ ∃ rest, c.stack = .print :: rest := by
  unfold printed?
  split
  · next w rest hcontrol hstack => simp [hcontrol, hstack]
  · next hnone =>
    constructor
    · intro h
      cases h
    · rintro ⟨hcontrol, rest, hstack⟩
      exact absurd hstack (hnone v rest hcontrol)

/-- Frames below and the sink make no difference to a step that does not print. -/
theorem step_amid (hc : c.result? = none) (hprint : c.printed? = none) :
    step d (c.amid base g) = (step d c).amid base g := by
  obtain ⟨control, env, stack, world⟩ := c
  cases control with
  | eval e => exact startExpr_amid e
  | exec s => exact startStmt_amid s
  | signal s =>
    cases stack with
    -- A signal without a frame is the end, where nothing is left to do.
    | nil => cases hc
    | cons f stack =>
      refine resume_amid (c := ⟨_, env, stack, world⟩) ?_
      rintro v rfl rfl
      cases hprint

/-- A step that prints. -/
theorem step_printed {v : Value} (h : c.printed? = some v) :
    ∃ rest, c.stack = .print :: rest ∧ step d c = Config.print { c with stack := rest } v := by
  obtain ⟨hcontrol, rest, hstack⟩ := printed?_eq_some.1 h
  refine ⟨rest, hstack, ?_⟩
  simp only [step, hcontrol, hstack]
  rfl

end Config

end Lox.Machine
