import Lox.Proofs.Heap.Receivers
import Lox.Proofs.Machine.Alike
import Lox.Proofs.Machine.Preservation

/-!
# Faults that no program can cause

Some faults of the machine stand where the code of a program cannot lead
(`RuntimeFault.isInternal`): operators that are none, an initializer without an object, and a
`super` that finds no class or no object. The operators are those of the grammar, and initializers
are bound before a program can call them (`Config.Tied`), which every step preserves as long as the
names that the code declares are identifiers. What `super` finds is left to the static scopes
(`Config.FindsSuper`).

Main statement: a step does not raise such a fault (`Config.Sane.step`).
-/

namespace Lox

/-- A fault that no program can cause. -/
def RuntimeFault.isInternal : RuntimeFault → Bool
  | .noUnaryOperator | .noBinaryOperator | .superUnresolved | .superNotClass
  | .superOutsideMethod | .initializerUnbound => true
  | .undefinedVariable _ | .undefinedProperty _ | .operandNotNumber | .operandsNotNumbers
  | .operandsNotAddable | .notCallable | .wrongArity _ _ | .readOfNonObject | .writeToNonObject
  | .superclassNotClass => false

/-- The words among the tokens are spelled as their kinds say. -/
def Likeness.spelled : Likeness := .on Token.Spelled

theorem Likeness.Of.spelled {t t' : Token} (h : Likeness.spelled.Of .identifier t t') :
    Kind.ofWord t.lexeme = .identifier := by
  have hspelled : t.Spelled := h.rel.2
  rw [hspelled (h.kind_eq ▸ rfl), h.kind_eq]

namespace Machine

/-! ## Configurations -/

/-- The values that wait in a frame are bound. -/
def Frame.Tied (h : Heap) : Frame → Prop
  | .binaryRight left _ => left.Tied h
  | .argument f _ before _ => f.Tied h ∧ ∀ v ∈ before, v.Tied h
  | .call code _ => code.Tied h
  | _ => True

/-- A value is bound, and an error is one that a program can cause. -/
def Signal.Sane (h : Heap) : Signal → Prop
  | .value v | .returned v => v.Tied h
  | .raised (.fault _ cause) => cause.isInternal = false
  | .done | .raised (.sink _) => True

def Control.Sane (h : Heap) : Control → Prop
  | .signal s => s.Sane h
  | .eval _ | .exec _ => True

namespace Config

/-- Every value in the heap and in the frames is bound. -/
structure Tied (c : Config) : Prop where
  heap : c.heap.Tied
  stack : ∀ f ∈ c.stack, f.Tied c.heap

/-- The same, and no fault is raised that no program can cause. -/
structure Sane (c : Config) : Prop extends Tied c where
  control : c.control.Sane c.heap

/-- What `super` asks for: there is a distance on file, the scope at this distance has the
superclass, and the one just inside it has the object. -/
def FindsSuper (d : Scoping.Distances) (c : Config) : Prop :=
  ∀ id keyword method, c.control = .eval (.super id keyword method) →
    ∃ hops parent this, d[id]? = some (hops + 1) ∧
      c.heap.getAt? c.env (hops + 1) "super" = some parent ∧
      c.heap.getAt? c.env hops "this" = some this

end Config

theorem Frame.Tied.keep {h h' : Heap} {f : Frame} (hf : f.Tied h) (ht : h.Ties h') :
    f.Tied h' := by
  cases f with
  | binaryRight left op => exact ht.value hf
  | argument callee paren before after =>
    exact ⟨ht.value hf.1, fun v hv => ht.value (hf.2 v hv)⟩
  | call code saved => exact ht.closure hf
  | _ => trivial

namespace Config.Tied

variable {c : Config} {d : Scoping.Distances}

theorem signal (h : c.Tied) {s : Signal} (hs : s.Sane c.heap) : (c.signal s).Sane :=
  ⟨⟨h.heap, h.stack⟩, hs⟩

theorem give (h : c.Tied) {v : Value} (hv : v.Tied c.heap) : (c.give v).Sane := h.signal hv

theorem done (h : c.Tied) : c.done.Sane := h.signal trivial

theorem raise (h : c.Tied) (site : Token) {fault : RuntimeFault}
    (hf : fault.isInternal = false) : (c.raise site fault).Sane :=
  h.signal hf

theorem eval (h : c.Tied) (e : Expr) : Config.Sane { c with control := .eval e } :=
  ⟨⟨h.heap, h.stack⟩, trivial⟩

theorem exec (h : c.Tied) (s : Stmt) : Config.Sane { c with control := .exec s } :=
  ⟨⟨h.heap, h.stack⟩, trivial⟩

theorem push (h : c.Tied) {f : Frame} (hf : f.Tied c.heap) :
    Config.Tied { c with stack := f :: c.stack } :=
  ⟨h.heap, List.forall_mem_cons.2 ⟨hf, h.stack⟩⟩

theorem evalThen (h : c.Tied) (e : Expr) {f : Frame} (hf : f.Tied c.heap) :
    (c.evalThen e f).Sane :=
  (h.push hf).eval e

theorem execThen (h : c.Tied) (s : Stmt) {f : Frame} (hf : f.Tied c.heap) :
    (c.execThen s f).Sane :=
  (h.push hf).exec s

theorem onHeap (h : c.Tied) {α : Type} {f : Heap → α × Heap} (ht : c.heap.Ties (f c.heap).2) :
    (c.onHeap f).2.Tied :=
  ⟨ht.tied, fun frame hf => (h.stack frame hf).keep ht⟩

theorem mapHeap (h : c.Tied) {f : Env → Heap → Heap} (ht : c.heap.Ties (f c.env c.heap)) :
    (c.mapHeap f).Tied :=
  ⟨ht.tied, fun frame hf => (h.stack frame hf).keep ht⟩

/-! ## Names -/

theorem read (h : c.Tied) (id : NodeId) (name : Token) : (c.read d id name).Sane := by
  unfold Config.read
  split
  · next v hv =>
    obtain ⟨s, hr⟩ := read_of_lookUp hv
    exact h.give (h.heap.scopes hr).2
  · exact h.raise _ rfl

theorem assign (h : c.Tied) (id : NodeId) {name : Token}
    (hn : Kind.ofWord name.lexeme = .identifier) {v : Value} (hv : v.Tied c.heap) :
    (c.assign d id name v).Sane := by
  unfold Config.assign
  split
  · next s _ =>
    have ht := h.heap.write (Value.suits_of_identifier hn v) hv s
    exact (h.mapHeap (f := fun _ h => h.write s name.lexeme v) ht).give (ht.value hv)
  · exact h.raise _ rfl

theorem giveMethod (h : c.Tied) (method : Closure) (o : Object) : (c.giveMethod method o).Sane := by
  obtain ⟨ht, hcode⟩ := h.heap.bind method o
  have hid := ht.tied.freshId
  exact (h.onHeap (f := (·.boundMethod method o)) (ht.trans hid)).give (hid.closure hcode)

theorem superMethod (h : c.Tied) {id : NodeId} {keyword method : Token} {hops : Nat}
    {parent this : Value} (hd : d[id]? = some (hops + 1))
    (hparent : c.heap.getAt? c.env (hops + 1) "super" = some parent)
    (hthis : c.heap.getAt? c.env hops "this" = some this) :
    (c.superMethod d id keyword method).Sane := by
  obtain ⟨s, -, hread⟩ := Option.bind_eq_some_iff.1 hparent
  obtain ⟨s', -, hread'⟩ := Option.bind_eq_some_iff.1 hthis
  obtain ⟨k, rfl⟩ := (h.heap.scopes hread).1.super rfl
  obtain ⟨o, rfl⟩ := (h.heap.scopes hread').1.this rfl
  simp only [Config.superMethod, hd, hparent, Nat.succ_ne_zero, if_false, Nat.add_sub_cancel, hthis]
  split
  · exact h.giveMethod _ o
  · exact h.raise _ rfl

theorem property (h : c.Tied) (name : Token) (v : Value) : (c.property name v).Sane := by
  cases v with
  | object o =>
    rw [Config.property]
    split
    · next w hw => exact h.give (h.heap.fields hw)
    · split
      · exact h.giveMethod _ o
      · exact h.raise _ rfl
  | _ => exact h.raise _ rfl

/-! ## Calls -/

/-- Parameters are bound under identifiers. -/
theorem bindParams {h : Heap} {params params' : List Token}
    (hp : List.Forall₂ (Likeness.spelled.Of .identifier) params params') {arguments : List Value}
    (ha : ∀ v ∈ arguments, v.Tied h) :
    ∀ n v, (Config.bindParams params arguments).get? n = some v → v.Suits n ∧ v.Tied h := by
  -- Along the parameters, whose names are no keywords, so that any value suits them.
  have hgen : ∀ b : Bindings Value, (∀ n v, b.get? n = some v → v.Suits n ∧ v.Tied h) →
      ∀ n v, ((params.zip arguments).foldl (fun b p => b.insert p.1.lexeme p.2) b).get? n =
        some v → v.Suits n ∧ v.Tied h := by
    induction hp generalizing arguments with
    | nil => exact fun b hb => hb
    | cons hname _ ih =>
      cases arguments with
      | nil => exact fun b hb => hb
      | cons w arguments =>
        obtain ⟨hw, ha⟩ := List.forall_mem_cons.1 ha
        intro b hb
        refine ih ha _ fun n v hv => ?_
        rw [Bindings.get?_insert] at hv
        split at hv
        · next heq =>
          cases hv
          exact ⟨Value.suits_of_identifier (heq ▸ hname.spelled) w, hw⟩
        · exact hb n v hv
  exact hgen [] nofun

theorem within (h : c.Tied) (outer : Env) {b : Bindings Value}
    (hb : ∀ n v, b.get? n = some v → v.Suits n ∧ v.Tied c.heap) (ss : List Stmt) {leave : Frame}
    (hl : leave.Tied c.heap) : (c.within outer b ss leave).Sane := by
  have ht := h.heap.newScope hb
  refine ⟨⟨ht.tied, ?_⟩, trivial⟩
  exact List.forall_mem_cons.2 ⟨trivial, List.forall_mem_cons.2
    ⟨hl.keep ht, fun frame hf => (h.stack frame hf).keep ht⟩⟩

variable {N : NodeId → NodeId → Prop}

theorem enter (h : c.Tied) {f : Closure} {decl' : FunctionDecl}
    (hdecl : f.decl.Alike N .spelled decl') (ht : f.Tied c.heap) {arguments : List Value}
    (ha : ∀ v ∈ arguments, v.Tied c.heap) : (c.enter f arguments).Sane := by
  obtain ⟨decl, env, isInitializer⟩ := f
  cases hdecl with
  | mk hname hparams hbody => exact h.within env (bindParams hparams ha) _ ht

theorem finish (h : c.Tied) {code : Closure} (hc : code.Tied c.heap) {v : Value}
    (hv : v.Tied c.heap) : (c.finish code v).Sane := by
  unfold Config.finish
  split
  · next hinit =>
    -- An initializer has a scope with `this` around it, so the look-up cannot fail.
    obtain ⟨s, outer, henv, hb⟩ := hc hinit
    obtain ⟨this, hread⟩ := c.heap.binds_iff.1 hb
    have hthis : c.heap.getAt? code.env 0 "this" = some this := by
      rw [henv]
      exact hread
    rw [hthis]
    exact h.give (h.heap.scopes hread).2
  · exact h.give hv

theorem instantiate (h : c.Tied) {k k' : Class} (hk : k.Alike N .spelled k')
    {arguments : List Value} (ha : ∀ v ∈ arguments, v.Tied c.heap) :
    (c.instantiate k arguments).Sane := by
  have hnew := h.heap.newObject k
  have hobject := h.onHeap (f := (·.newObject k)) hnew
  have hinit := hk.method? "init"
  unfold Config.instantiate
  dsimp only
  generalize k.method? "init" = x at hinit ⊢
  generalize k'.method? "init" = x' at hinit
  cases hinit with
  | none => exact hobject.give (v := .object _) trivial
  | @some init init' hf =>
    -- Two steps of the heap: the object, and the scope in which `init` is bound to it.
    obtain ⟨ht, hcode⟩ := hnew.tied.bind init (c.heap.newObject k).1
    have hbound := hobject.onHeap (f := (·.bind init (c.heap.newObject k).1)) ht
    have hframe : (Frame.construct (c.heap.newObject k).1).Tied
        ((c.heap.newObject k).2.bind init (c.heap.newObject k).1).2 := trivial
    exact (hbound.push hframe).enter (f := (Heap.bind _ init _).1) hf.decl hcode
      fun v hv => (hnew.trans ht).value (ha v hv)

theorem call (h : c.Tied) {callee callee' : Value} (hc : callee.Alike N .spelled callee')
    (ht : callee.Tied c.heap) (paren : Token) {arguments : List Value}
    (ha : ∀ v ∈ arguments, v.Tied c.heap) : (c.call callee paren arguments).Sane := by
  unfold Config.call
  split
  · exact h.raise _ rfl
  · split
    · cases hc with
      | builtin f =>
        cases f with
        | clock => exact ⟨⟨h.heap, h.stack⟩, trivial⟩
      | function id hf => exact h.enter hf.decl ht ha
      | class_ hk => exact h.instantiate hk ha
      | _ => exact h.raise _ rfl
    · exact h.raise _ rfl

theorem callWith (h : c.Tied) {callee callee' : Value} (hc : callee.Alike N .spelled callee')
    (ht : callee.Tied c.heap) (paren : Token) {before : List Value}
    (hb : ∀ v ∈ before, v.Tied c.heap) (after : List Expr) :
    (c.callWith callee paren before after).Sane := by
  cases after with
  | nil => exact h.call hc ht paren hb
  | cons e after => exact h.evalThen e ⟨ht, hb⟩

/-! ## Statements -/

theorem declareVar (h : c.Tied) {name : Token} (hn : Kind.ofWord name.lexeme = .identifier)
    {v : Value} (hv : v.Tied c.heap) : (c.declareVar name v).Sane :=
  (h.mapHeap (f := fun env h => h.define env name.lexeme v)
    (h.heap.define (Value.suits_of_identifier hn v) hv c.env)).done

theorem declareFunction (h : c.Tied) {decl : FunctionDecl}
    (hn : Kind.ofWord decl.name.lexeme = .identifier) : (c.declareFunction decl).Sane :=
  (h.mapHeap (f := fun env h => h.declareFunction env decl)
    (h.heap.declareFunction hn c.env)).done

theorem declareClass (h : c.Tied) {name : Token} (hn : Kind.ofWord name.lexeme = .identifier)
    (parent : Option Class) (methods : List FunctionDecl) :
    (c.declareClass name parent methods).Sane :=
  (h.mapHeap (f := fun env h => h.declareClass env name.lexeme parent methods)
    (h.heap.declareClass hn c.env parent methods)).done

theorem print (h : c.Tied) (v : Value) : (c.print v).Sane := by
  simp only [Config.print, Config.write]
  split
  · next heq =>
    obtain ⟨-, rfl⟩ := Prod.mk.inj heq
    exact ⟨⟨h.heap, h.stack⟩, trivial⟩
  · next heq =>
    obtain ⟨-, rfl⟩ := Prod.mk.inj heq
    exact ⟨⟨h.heap, h.stack⟩, trivial⟩

theorem runAll (h : c.Tied) (ss : List Stmt) : (c.runAll ss).Sane := by
  cases ss with
  | nil => exact h.done
  | cons s rest => exact h.execThen s trivial

theorem startStmt (h : c.Tied) {s s' : Stmt} (hs : s.Alike N .spelled s') :
    (c.startStmt s).Sane := by
  cases hs with
  | expression he => exact h.evalThen _ trivial
  | print he => exact h.evalThen _ trivial
  | varDecl hname hv =>
    cases hv with
    | none => exact h.declareVar hname.spelled (v := .nil) trivial
    | some he => exact h.evalThen _ trivial
  | block hss => exact h.within c.env (b := []) nofun _ trivial
  | ifOnly hc hs => exact h.evalThen _ trivial
  | ifElse hc hs ht => exact h.evalThen _ trivial
  | loop hc hs => exact h.evalThen _ trivial
  | funDecl hf =>
    cases hf with
    | mk hname hparams hbody => exact h.declareFunction hname.spelled
  | ret hk hv =>
    cases hv with
    | none => exact h.signal (s := .returned .nil) trivial
    | some he => exact h.evalThen _ trivial
  | classDecl hname hp hm =>
    cases hp with
    | none => exact h.declareClass hname.spelled none _
    | some he => exact h.evalThen _ trivial

theorem startExpr (h : c.Tied) {e : Expr} (hc : c.control = .eval e) (hsuper : c.FindsSuper d) :
    (c.startExpr d e).Sane := by
  cases e with
  | constant k => exact h.give (by cases k <;> trivial)
  | grouping inner => exact h.eval inner
  | var id name => exact h.read id name
  | this id keyword => exact h.read id keyword
  | super id keyword method =>
    obtain ⟨hops, parent, this, hd, hparent, hthis⟩ := hsuper id keyword method hc
    exact h.superMethod hd hparent hthis
  | _ => exact h.evalThen _ trivial

end Config.Tied

/-! ## Operators -/

/-- What an operator gives is a value in order or a fault that a program can cause. -/
def SaneResult (h : Heap) : Except RuntimeFault Value → Prop
  | .ok v => v.Tied h
  | .error fault => fault.isInternal = false

theorem applyUnary_sane {op : Kind} (hk : op = .bang ∨ op = .minus) {h : Heap} (v : Value) :
    SaneResult h (applyUnary op v) := by
  rcases hk with rfl | rfl
  · trivial
  · cases v with
    | number x => trivial
    | _ => rfl

theorem add_sane {h : Heap} (v v' : Value) : SaneResult h (add v v') := by
  unfold add
  split
  · trivial
  · trivial
  · rfl

/-- The operators that work on numbers only. -/
theorem applyNumeric_sane {op : Kind} (hk : op ∈ Grammar.binaryOperators)
    (hne : op ≠ .equalEqual ∧ op ≠ .bangEqual ∧ op ≠ .plus) {h : Heap} (a b : Float) :
    SaneResult h (applyNumeric op a b) := by
  unfold applyNumeric
  split
  -- The last case is that of another operator, which the grammar does not make.
  case h_8 => grind [Grammar.binaryOperators, Grammar.Level.operators]
  all_goals trivial

theorem applyBinary_sane {op : Kind} (hk : op ∈ Grammar.binaryOperators) {h : Heap}
    (v v' : Value) : SaneResult h (applyBinary op v v') := by
  unfold applyBinary
  split
  · trivial
  · trivial
  · exact add_sane v v'
  · next hequal hbang hplus =>
    split
    · next a b => exact applyNumeric_sane hk ⟨hequal, hbang, hplus⟩ a b
    · rfl

namespace Config

variable {c : Config} {d : Scoping.Distances} {N : NodeId → NodeId → Prop}

theorem Tied.giveOr (h : c.Tied) (site : Token) {r : Except RuntimeFault Value}
    (hr : SaneResult c.heap r) : (c.giveOr site r).Sane := by
  cases r with
  | ok v => exact h.give hr
  | error fault => exact h.raise site hr

theorem Tied.onValue (h : c.Tied) {s : Signal} (hs : s.Sane c.heap) {go : Config → Value → Config}
    (hgo : ∀ v, s = .value v → v.Tied c.heap → (go c v).Sane) : (c.onValue s go).Sane := by
  cases s with
  | value v => exact hgo v rfl hs
  | _ => exact h.signal hs

theorem Tied.onDone (h : c.Tied) {s : Signal} (hs : s.Sane c.heap) {go : Config → Config}
    (hgo : (go c).Sane) : (c.onDone s go).Sane := by
  cases s with
  | done => exact hgo
  | _ => exact h.signal hs

/-- Handing a signal to a frame. -/
theorem Tied.resume (h : c.Tied) {s s' : Signal} (hs : s.Sane c.heap)
    (hcode : s.Alike N .spelled s') {f f' : Frame} (hf : f.Tied c.heap)
    (hframe : f.Alike N .spelled f') : (c.resume d s f).Sane := by
  unfold Config.resume
  cases hframe with
  | unary hop hk => exact h.onValue hs fun v _ hv => h.giveOr _ (applyUnary_sane hk v)
  | binaryLeft hop hk hr => exact h.onValue hs fun v _ hv => h.evalThen _ hv
  | binaryRight hl hop hk => exact h.onValue hs fun v _ hv => h.giveOr _ (applyBinary_sane hk _ v)
  | logical hop hr =>
    refine h.onValue hs fun v _ hv => ?_
    split
    · exact h.give hv
    · exact h.eval _
  | assign hid hname => exact h.onValue hs fun v _ hv => h.assign _ hname.spelled hv
  | callee hparen ha =>
    refine h.onValue hs fun v hvalue hv => ?_
    subst hvalue
    cases hcode with
    | value hvcode => exact h.callWith hvcode hv _ (List.forall_mem_nil _) _
  | argument hcallee hparen hb ha =>
    refine h.onValue hs fun v _ hv => h.callWith hcallee hf.1 _ ?_ _
    exact List.forall_mem_append.2 ⟨hf.2, List.forall_mem_singleton.2 hv⟩
  | get hname => exact h.onValue hs fun v _ hv => h.property _ v
  | setObject hname he =>
    refine h.onValue hs fun v _ hv => ?_
    cases v with
    | object o => exact h.evalThen _ trivial
    | _ => exact h.raise _ rfl
  | @setValue o o' name name' ho hname =>
    refine h.onValue hs fun v _ hv => ?_
    have ht := h.heap.setField hv o name.lexeme
    exact (h.mapHeap (f := fun _ h => h.setField o name.lexeme v) ht).give (ht.value hv)
  | discard => exact h.onValue hs fun v _ hv => h.done
  | print => exact h.onValue hs fun v _ hv => h.print v
  | define hname => exact h.onValue hs fun v _ hv => h.declareVar hname.spelled hv
  | @branch _ _ other _ ht he =>
    refine h.onValue hs fun v _ hv => ?_
    split
    · exact h.exec _
    · cases other with
      | none => exact h.done
      | some s => exact h.exec s
  | loopTest hc hb =>
    refine h.onValue hs fun v _ hv => ?_
    split
    · exact h.execThen _ trivial
    · exact h.done
  | loopBody hc hb => exact h.onDone hs (h.evalThen _ trivial)
  | sequence hss => exact h.onDone hs (h.runAll _)
  | ret => exact h.onValue hs fun v _ hv => h.signal (s := .returned v) hv
  | superclass hname hsite hm =>
    refine h.onValue hs fun v _ hv => ?_
    cases v with
    | class_ parent => exact h.declareClass hname.spelled (some parent) _
    | _ => exact h.raise _ rfl
  -- The heap and the frames are tied whatever the environment is.
  | scope saved => exact ⟨⟨h.heap, h.stack⟩, hs⟩
  | call saved hcode =>
    have hback : Config.Tied { c with env := saved } := ⟨h.heap, h.stack⟩
    cases s with
    | done => exact hback.finish hf (v := .nil) trivial
    | returned v => exact hback.finish hf hs
    | value v => exact hback.signal hs
    | raised e => exact hback.signal hs
  | construct ho => exact h.onValue hs fun v _ hv => h.give (v := .object _) trivial

/-- A step raises no internal fault, and keeps every value bound. -/
theorem Sane.step (h : c.Sane) {c' : Config} (hcode : c.Alike N .spelled c')
    (hsuper : c.FindsSuper d) : (step d c).Sane := by
  obtain ⟨control, env, stack, world⟩ := c
  obtain ⟨control', env', stack', world'⟩ := c'
  obtain ⟨htied, hcontrol⟩ := h
  obtain ⟨⟨-, hframes, -⟩, hwork⟩ := hcode
  cases hwork with
  | eval he => exact htied.startExpr rfl hsuper
  | exec hs => exact htied.startStmt hs
  | @signal s s' hs =>
    cases hframes with
    | nil => exact ⟨htied, hcontrol⟩
    | @cons frame _ stack _ hframe _ =>
      obtain ⟨hframeTied, hrest⟩ := List.forall_mem_cons.1 htied.stack
      have hbelow : Config.Tied ⟨.signal s, env, stack, world⟩ := ⟨htied.heap, hrest⟩
      exact hbelow.resume hcontrol hs hframeTied hframe

/-- Neither does any step of a run. -/
theorem Sane.iterate (h : c.Sane) {c' : Config} (hcode : c.Alike N .spelled c')
    (hd : ∀ id id', N id id' → d[id']? = d[id]?)
    (hsuper : ∀ n, ((Machine.step d)^[n] c).FindsSuper d) (n : Nat) :
    ((Machine.step d)^[n] c).Sane := by
  induction n with
  | zero => exact h
  | succ n ih =>
    rw [Function.iterate_succ_apply']
    exact ih.step (hcode.iterate hd n) (hsuper n)

end Config

end Machine

end Lox
