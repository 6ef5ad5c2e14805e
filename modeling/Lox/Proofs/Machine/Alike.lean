import Lox.Machine.Step
import Lox.Proofs.Heap.Alike
import Mathlib.Logic.Function.Iterate

/-!
# Machines in step

Two machines whose code is alike and whose heaps are alike make alike steps, provided that
corresponding ids have the same distance on file (`Config.Alike.step`). So they run equally long,
print the same, and end with alike signals (`Config.Alike.run`).

Most operations of the machine replace the control and leave the rest alone. `Config.Around` is the
part of the relation that they start from, and each gets one lemma.
-/

namespace Lox

variable (N : NodeId → NodeId → Prop) (T : Likeness)

/-- The same error at corresponding tokens. -/
inductive RuntimeError.Alike : RuntimeError → RuntimeError → Prop
  | fault {site site' : Token} (cause : RuntimeFault) :
      T.rel site site' → RuntimeError.Alike (.fault site cause) (.fault site' cause)
  | sink (cause : SinkFault) : RuntimeError.Alike (.sink cause) (.sink cause)

namespace Machine

/-! ## Configurations -/

inductive Signal.Alike : Signal → Signal → Prop
  | value {v v' : Value} : v.Alike N T v' → Signal.Alike (.value v) (.value v')
  | done : Signal.Alike .done .done
  | returned {v v' : Value} : v.Alike N T v' → Signal.Alike (.returned v) (.returned v')
  | raised {e e' : RuntimeError} : e.Alike T e' → Signal.Alike (.raised e) (.raised e')

inductive Control.Alike : Control → Control → Prop
  | eval {e e' : Expr} : e.Alike N T e' → Control.Alike (.eval e) (.eval e')
  | exec {s s' : Stmt} : s.Alike N T s' → Control.Alike (.exec s) (.exec s')
  | signal {s s' : Signal} : s.Alike N T s' → Control.Alike (.signal s) (.signal s')

inductive Frame.Alike : Frame → Frame → Prop
  | unary {op op' : Token} :
      T.rel op op' → op.kind = .bang ∨ op.kind = .minus → Frame.Alike (.unary op) (.unary op')
  | binaryLeft {op op' : Token} {right right' : Expr} :
      T.rel op op' → op.kind ∈ Grammar.binaryOperators → right.Alike N T right' →
      Frame.Alike (.binaryLeft op right) (.binaryLeft op' right')
  | binaryRight {left left' : Value} {op op' : Token} :
      left.Alike N T left' → T.rel op op' → op.kind ∈ Grammar.binaryOperators →
      Frame.Alike (.binaryRight left op) (.binaryRight left' op')
  | logical {op op' : Token} {right right' : Expr} :
      T.rel op op' → right.Alike N T right' → Frame.Alike (.logical op right) (.logical op' right')
  | assign {id id' : NodeId} {name name' : Token} :
      N id id' → T.Of .identifier name name' → Frame.Alike (.assign id name) (.assign id' name')
  | callee {paren paren' : Token} {arguments arguments' : List Expr} :
      T.rel paren paren' → Expr.AlikeAll N T arguments arguments' →
      Frame.Alike (.callee paren arguments) (.callee paren' arguments')
  | argument {callee callee' : Value} {paren paren' : Token} {before before' : List Value}
      {after after' : List Expr} :
      callee.Alike N T callee' → T.rel paren paren' →
      List.Forall₂ (Value.Alike N T) before before' → Expr.AlikeAll N T after after' →
      Frame.Alike (.argument callee paren before after) (.argument callee' paren' before' after')
  | get {name name' : Token} : T.rel name name' → Frame.Alike (.get name) (.get name')
  | setObject {name name' : Token} {value value' : Expr} :
      T.rel name name' → value.Alike N T value' →
      Frame.Alike (.setObject name value) (.setObject name' value')
  | setValue {o o' : Object} {name name' : Token} :
      o.Alike N T o' → T.rel name name' → Frame.Alike (.setValue o name) (.setValue o' name')
  | discard : Frame.Alike .discard .discard
  | print : Frame.Alike .print .print
  | define {name name' : Token} :
      T.Of .identifier name name' → Frame.Alike (.define name) (.define name')
  | branch {s s' : Stmt} {other other' : Option Stmt} :
      s.Alike N T s' → Option.Rel (Stmt.Alike N T) other other' →
      Frame.Alike (.branch s other) (.branch s' other')
  | loopTest {condition condition' : Expr} {body body' : Stmt} :
      condition.Alike N T condition' → body.Alike N T body' →
      Frame.Alike (.loopTest condition body) (.loopTest condition' body')
  | loopBody {condition condition' : Expr} {body body' : Stmt} :
      condition.Alike N T condition' → body.Alike N T body' →
      Frame.Alike (.loopBody condition body) (.loopBody condition' body')
  | sequence {ss ss' : List Stmt} :
      Stmt.AlikeAll N T ss ss' → Frame.Alike (.sequence ss) (.sequence ss')
  | ret : Frame.Alike .ret .ret
  | superclass {name name' site site' : Token} {methods methods' : List FunctionDecl} :
      T.Of .identifier name name' → T.rel site site' → FunctionDecl.AlikeAll N T methods methods' →
      Frame.Alike (.superclass name site methods) (.superclass name' site' methods')
  | scope (saved : Env) : Frame.Alike (.scope saved) (.scope saved)
  | call {f f' : Closure} (saved : Env) :
      f.Alike N T f' → Frame.Alike (.call f saved) (.call f' saved)
  | construct {o o' : Object} : o.Alike N T o' → Frame.Alike (.construct o) (.construct o')

/-- Worlds with alike heaps, and all else the same. -/
structure World.Alike (w w' : World) : Prop where
  heap : w.heap.Alike N T w'.heap
  sink : w'.sink = w.sink
  clock : w'.clock = w.clock

namespace Config

/-- Alike in everything but the control. -/
structure Around (c c' : Config) : Prop where
  env : c'.env = c.env
  stack : List.Forall₂ (Frame.Alike N T) c.stack c'.stack
  world : c.world.Alike N T c'.world

structure Alike (c c' : Config) : Prop extends Around N T c c' where
  control : c.control.Alike N T c'.control

end Config

variable {N T}

namespace Config.Around

variable {c c' : Config}

theorem heap (h : c.Around N T c') : c.heap.Alike N T c'.heap := h.world.heap

theorem push (h : c.Around N T c') {f f' : Frame} (hf : f.Alike N T f') :
    Around N T { c with stack := f :: c.stack } { c' with stack := f' :: c'.stack } :=
  ⟨h.env, .cons hf h.stack, h.world⟩

theorem signal (h : c.Around N T c') {s s' : Signal} (hs : s.Alike N T s') :
    (c.signal s).Alike N T (c'.signal s') :=
  ⟨⟨h.env, h.stack, h.world⟩, .signal hs⟩

theorem give (h : c.Around N T c') {v v' : Value} (hv : v.Alike N T v') :
    (c.give v).Alike N T (c'.give v') :=
  h.signal (.value hv)

theorem done (h : c.Around N T c') : c.done.Alike N T c'.done := h.signal .done

theorem raise (h : c.Around N T c') {site site' : Token} (hs : T.rel site site')
    (fault : RuntimeFault) : (c.raise site fault).Alike N T (c'.raise site' fault) :=
  h.signal (.raised (.fault fault hs))

theorem eval (h : c.Around N T c') {e e' : Expr} (he : e.Alike N T e') :
    Config.Alike N T { c with control := .eval e } { c' with control := .eval e' } :=
  ⟨⟨h.env, h.stack, h.world⟩, .eval he⟩

theorem exec (h : c.Around N T c') {s s' : Stmt} (hs : s.Alike N T s') :
    Config.Alike N T { c with control := .exec s } { c' with control := .exec s' } :=
  ⟨⟨h.env, h.stack, h.world⟩, .exec hs⟩

theorem evalThen (h : c.Around N T c') {e e' : Expr} (he : e.Alike N T e') {f f' : Frame}
    (hf : f.Alike N T f') : (c.evalThen e f).Alike N T (c'.evalThen e' f') :=
  ⟨⟨h.env, .cons hf h.stack, h.world⟩, .eval he⟩

theorem execThen (h : c.Around N T c') {s s' : Stmt} (hs : s.Alike N T s') {f f' : Frame}
    (hf : f.Alike N T f') : (c.execThen s f).Alike N T (c'.execThen s' f') :=
  ⟨⟨h.env, .cons hf h.stack, h.world⟩, .exec hs⟩

theorem onHeap (h : c.Around N T c') {α : Type} {f g : Heap → α × Heap}
    (hf : (f c.heap).2.Alike N T (g c'.heap).2) :
    (c.onHeap f).2.Around N T (c'.onHeap g).2 :=
  ⟨h.env, h.stack, hf, h.world.sink, h.world.clock⟩

theorem mapHeap (h : c.Around N T c') {f g : Env → Heap → Heap}
    (hf : (f c.env c.heap).Alike N T (g c'.env c'.heap)) :
    (c.mapHeap f).Around N T (c'.mapHeap g) :=
  ⟨h.env, h.stack, hf, h.world.sink, h.world.clock⟩

/-! ## Names -/

variable {d d' : Scoping.Distances} (hd : ∀ id id', N id id' → d'[id']? = d[id]?)

include hd in
theorem lookUp (h : c.Around N T c') {id id' : NodeId} (hid : N id id') (name : String) :
    Option.Rel (Value.Alike N T) (Machine.lookUp d c.heap c.env id name)
      (Machine.lookUp d' c'.heap c'.env id' name) := by
  unfold Machine.lookUp
  rw [hd id id' hid, h.env]
  cases d[id]? with
  | none => exact h.heap.get? _ name
  | some hops => exact h.heap.getAt? _ hops name

include hd in
theorem targetOf (h : c.Around N T c') {id id' : NodeId} (hid : N id id') (name : String) :
    Machine.targetOf d' c'.heap c'.env id' name = Machine.targetOf d c.heap c.env id name := by
  unfold Machine.targetOf
  rw [hd id id' hid, h.env]
  cases d[id]? with
  | none => exact h.heap.scopeOf? _ name
  | some hops => exact h.heap.scopeAt? _ hops name

include hd in
theorem read (h : c.Around N T c') {id id' : NodeId} (hid : N id id') {name name' : Token}
    (hname : T.rel name name') : (c.read d id name).Alike N T (c'.read d' id' name') := by
  have hlook := h.lookUp hd hid name.lexeme
  unfold Config.read
  rw [T.lexeme hname]
  generalize Machine.lookUp d c.heap c.env id name.lexeme = x at hlook ⊢
  generalize Machine.lookUp d' c'.heap c'.env id' name.lexeme = x' at hlook ⊢
  cases hlook with
  | none => exact h.raise hname _
  | some hv => exact h.give hv

include hd in
theorem assign (h : c.Around N T c') {id id' : NodeId} (hid : N id id') {name name' : Token}
    (hname : T.rel name name') {v v' : Value} (hv : v.Alike N T v') :
    (c.assign d id name v).Alike N T (c'.assign d' id' name' v') := by
  unfold Config.assign
  rw [T.lexeme hname, h.targetOf hd hid]
  cases Machine.targetOf d c.heap c.env id name.lexeme with
  | none => exact h.raise hname _
  | some scope =>
    exact (h.mapHeap (f := fun _ h => h.write scope _ v) (g := fun _ h => h.write scope _ v')
      (h.heap.write scope _ hv)).give hv

theorem giveMethod (h : c.Around N T c') {f f' : Closure} (hf : f.Alike N T f')
    {o o' : Object} (ho : o.Alike N T o') :
    (c.giveMethod f o).Alike N T (c'.giveMethod f' o') := by
  obtain ⟨hv, hheap⟩ := h.heap.boundMethod hf ho
  exact (h.onHeap (f := (·.boundMethod f o)) (g := (·.boundMethod f' o')) hheap).give hv

/-- A method that is looked up and bound to an object. -/
theorem giveMethodOr (h : c.Around N T c') {k k' : Class} (hk : k.Alike N T k')
    {o o' : Object} (ho : o.Alike N T o') {name name' : Token} (hname : T.rel name name') :
    Config.Alike N T
      (match k.method? name.lexeme with
        | some found => c.giveMethod found o
        | none => c.raise name (.undefinedProperty name.lexeme))
      (match k'.method? name'.lexeme with
        | some found => c'.giveMethod found o'
        | none => c'.raise name' (.undefinedProperty name'.lexeme)) := by
  have hmethod := hk.method? name.lexeme
  rw [T.lexeme hname]
  generalize k.method? name.lexeme = x at hmethod ⊢
  generalize k'.method? name.lexeme = x' at hmethod ⊢
  cases hmethod with
  | none => exact h.raise hname _
  | some hf => exact h.giveMethod hf ho

include hd in
theorem superMethod (h : c.Around N T c') {id id' : NodeId} (hid : N id id')
    {keyword keyword' method method' : Token} (hk : T.rel keyword keyword')
    (hm : T.rel method method') :
    (c.superMethod d id keyword method).Alike N T (c'.superMethod d' id' keyword' method') := by
  unfold Config.superMethod
  rw [hd id id' hid, h.env]
  cases d[id]? with
  | none => exact h.raise hk _
  | some hops =>
    dsimp only
    have hparent := h.heap.getAt? c.env hops "super"
    have hthis : Option.Rel (Value.Alike N T)
        (if hops = 0 then none else c.heap.getAt? c.env (hops - 1) "this")
        (if hops = 0 then none else c'.heap.getAt? c.env (hops - 1) "this") := by
      split
      · exact .none
      · exact h.heap.getAt? c.env (hops - 1) "this"
    -- The four look-ups are named, so that the pairs of alike results can be taken apart.
    generalize c.heap.getAt? c.env hops "super" = x at hparent ⊢
    generalize c'.heap.getAt? c.env hops "super" = x' at hparent ⊢
    generalize (if hops = 0 then none else c.heap.getAt? c.env (hops - 1) "this") = y at hthis ⊢
    generalize (if hops = 0 then none else c'.heap.getAt? c.env (hops - 1) "this") = y' at hthis ⊢
    cases hparent with
    | none => exact h.raise hk _
    | some hv =>
      cases hv with
      | class_ hclass =>
        cases hthis with
        | none => exact h.raise hk _
        | some hw =>
          cases hw with
          | object ho => exact h.giveMethodOr hclass ho hm
          | _ => exact h.raise hk _
      | _ => exact h.raise hk _

theorem property (h : c.Around N T c') {name name' : Token} (hname : T.rel name name')
    {v v' : Value} (hv : v.Alike N T v') :
    (c.property name v).Alike N T (c'.property name' v') := by
  cases hv with
  | @object o o' ho =>
    have hfield := (h.heap.fieldsOf ho).get? name.lexeme
    unfold Config.property
    dsimp only
    rw [T.lexeme hname]
    generalize Bindings.get? (c.heap.fieldsOf o) name.lexeme = x at hfield ⊢
    generalize Bindings.get? (c'.heap.fieldsOf o') name.lexeme = x' at hfield ⊢
    cases hfield with
    | some hw => exact h.give hw
    | none =>
      -- Fields go before methods.
      have hmethod := h.giveMethodOr ho.class_ ho hname
      rw [T.lexeme hname] at hmethod
      exact hmethod
  | _ => exact h.raise hname _

/-! ## Calls -/

theorem bindParams {params params' : List Token}
    (hp : List.Forall₂ (T.Of .identifier) params params') {arguments arguments' : List Value}
    (ha : List.Forall₂ (Value.Alike N T) arguments arguments') :
    (Config.bindParams params arguments).Alike (Value.Alike N T)
      (Config.bindParams params' arguments') := by
  unfold Config.bindParams
  -- Along the parameters, with any two alike scopes to start from.
  have hgen : ∀ b b' : Bindings Value, b.Alike (Value.Alike N T) b' →
      Bindings.Alike (Value.Alike N T)
        ((params.zip arguments).foldl (fun b p => b.insert p.1.lexeme p.2) b)
        ((params'.zip arguments').foldl (fun b p => b.insert p.1.lexeme p.2) b') := by
    induction hp generalizing arguments arguments' with
    | nil => exact fun _ _ hb => hb
    | cons hname _ ih =>
      cases ha with
      | nil => exact fun _ _ hb => hb
      | cons hv hs =>
        intro b b' hb
        rw [List.zip_cons_cons, List.zip_cons_cons, List.foldl_cons, List.foldl_cons,
          T.lexeme hname.rel]
        exact ih hs _ _ (hb.insert _ hv)
  exact hgen [] [] .nil

theorem within (h : c.Around N T c') (outer : Env) {b b' : Bindings Value}
    (hb : b.Alike (Value.Alike N T) b') {ss ss' : List Stmt} (hs : Stmt.AlikeAll N T ss ss')
    {leave leave' : Frame} (hl : leave.Alike N T leave') :
    (c.within outer b ss leave).Alike N T (c'.within outer b' ss' leave') := by
  obtain ⟨henv, hheap⟩ := h.heap.nest outer hb
  exact ⟨⟨henv, .cons (.sequence hs) (.cons hl h.stack), hheap, h.world.sink, h.world.clock⟩,
    .signal .done⟩

theorem enter (h : c.Around N T c') {f f' : Closure} (hf : f.Alike N T f')
    {arguments arguments' : List Value}
    (ha : List.Forall₂ (Value.Alike N T) arguments arguments') :
    (c.enter f arguments).Alike N T (c'.enter f' arguments') := by
  unfold Config.enter
  rw [hf.env, h.env]
  have hdecl := hf.decl
  have hcall : Frame.Alike N T (.call f c.env) (.call f' c.env) := .call c.env hf
  generalize f.decl = decl at hdecl ⊢
  generalize f'.decl = decl' at hdecl ⊢
  cases hdecl with
  | mk hname hparams hbody => exact h.within _ (bindParams hparams ha) hbody hcall

theorem finish (h : c.Around N T c') {f f' : Closure} (hf : f.Alike N T f') {v v' : Value}
    (hv : v.Alike N T v') : (c.finish f v).Alike N T (c'.finish f' v') := by
  unfold Config.finish
  rw [hf.isInitializer, hf.env]
  split
  -- An initializer gives its object, whatever its body returns.
  · have hthis := h.heap.getAt? f.env 0 "this"
    have hname : T.rel f.decl.name f'.decl.name := by
      obtain ⟨⟨_, _, _⟩, _, _⟩ := f
      obtain ⟨⟨_, _, _⟩, _, _⟩ := f'
      obtain ⟨⟨hname, _, _⟩, _, _⟩ := hf
      exact hname.rel
    generalize c.heap.getAt? f.env 0 "this" = x at hthis ⊢
    generalize c'.heap.getAt? f.env 0 "this" = x' at hthis ⊢
    cases hthis with
    | none => exact h.raise hname _
    | some hw => exact h.give hw
  · exact h.give hv

theorem instantiate (h : c.Around N T c') {k k' : Class} (hk : k.Alike N T k')
    {arguments arguments' : List Value}
    (ha : List.Forall₂ (Value.Alike N T) arguments arguments') :
    (c.instantiate k arguments).Alike N T (c'.instantiate k' arguments') := by
  obtain ⟨ho, hheap⟩ := h.heap.newObject hk
  have hobject := h.onHeap (f := (·.newObject k)) (g := (·.newObject k')) hheap
  have hinit := hk.method? "init"
  unfold Config.instantiate
  dsimp only
  generalize k.method? "init" = x at hinit ⊢
  generalize k'.method? "init" = x' at hinit ⊢
  cases hinit with
  | none => exact hobject.give (.object ho)
  | @some f f' hf =>
    obtain ⟨hcode, hbound⟩ := hheap.bind hf ho
    have hb := hobject.onHeap (f := (·.bind f (c.heap.newObject k).1))
      (g := (·.bind f' (c'.heap.newObject k').1)) hbound
    exact (hb.push (.construct ho)).enter hcode ha

theorem readClock (h : c.Around N T c') : c.readClock.Alike N T c'.readClock := by
  unfold Config.readClock
  rw [h.world.clock]
  refine give ?_ (.number _)
  exact ⟨h.env, h.stack, h.heap, h.world.sink, rfl⟩

theorem invoke (h : c.Around N T c') {paren paren' : Token} (hp : T.rel paren paren')
    {arguments arguments' : List Value} (ha : List.Forall₂ (Value.Alike N T) arguments arguments')
    {v v' : Value} (hv : v.Alike N T v') :
    (c.invoke paren arguments v).Alike N T (c'.invoke paren' arguments' v') := by
  cases hv with
  | builtin f =>
    cases f with
    | clock => exact h.readClock
  | function id hf => exact h.enter hf ha
  | class_ hk => exact h.instantiate hk ha
  | _ => exact h.raise hp _

theorem call (h : c.Around N T c') {v v' : Value} (hv : v.Alike N T v') {paren paren' : Token}
    (hp : T.rel paren paren') {arguments arguments' : List Value}
    (ha : List.Forall₂ (Value.Alike N T) arguments arguments') :
    (c.call v paren arguments).Alike N T (c'.call v' paren' arguments') := by
  unfold Config.call
  rw [hv.arity?, ha.length_eq]
  cases v.arity? with
  | none => exact h.raise hp _
  | some arity =>
    dsimp only
    split
    · exact h.invoke hp ha hv
    · exact h.raise hp _

theorem callWith (h : c.Around N T c') {v v' : Value} (hv : v.Alike N T v')
    {paren paren' : Token} (hp : T.rel paren paren') {before before' : List Value}
    (hb : List.Forall₂ (Value.Alike N T) before before') {after after' : List Expr}
    (ha : Expr.AlikeAll N T after after') :
    (c.callWith v paren before after).Alike N T (c'.callWith v' paren' before' after') := by
  cases ha with
  | nil => exact h.call hv hp hb
  | cons he hs => exact h.evalThen he (.argument hv hp hb hs)

/-! ## Statements -/

theorem declareClass (h : c.Around N T c') {name name' : Token} (hname : T.rel name name')
    {parent parent' : Option Class} (hp : Option.Rel (Class.Alike N T) parent parent')
    {methods methods' : List FunctionDecl} (hm : FunctionDecl.AlikeAll N T methods methods') :
    (c.declareClass name parent methods).Alike N T (c'.declareClass name' parent' methods') := by
  unfold Config.declareClass
  rw [T.lexeme hname]
  refine done (h.mapHeap ?_)
  rw [h.env]
  exact h.heap.declareClass c.env _ hp hm

theorem declareFunction (h : c.Around N T c') {f f' : FunctionDecl} (hf : f.Alike N T f') :
    (c.declareFunction f).Alike N T (c'.declareFunction f') := by
  refine done (h.mapHeap ?_)
  rw [h.env]
  exact h.heap.declareFunction c.env hf

theorem declareVar (h : c.Around N T c') {name name' : Token} (hname : T.rel name name')
    {v v' : Value} (hv : v.Alike N T v') :
    (c.declareVar name v).Alike N T (c'.declareVar name' v') := by
  unfold Config.declareVar
  rw [T.lexeme hname]
  refine done (h.mapHeap ?_)
  rw [h.env]
  exact h.heap.define c.env _ hv

theorem print (h : c.Around N T c') {v v' : Value} (hv : v.Alike N T v') :
    (c.print v).Alike N T (c'.print v') := by
  obtain ⟨control, env, stack, ⟨heap, sink, clock⟩⟩ := c
  obtain ⟨control', env', stack', ⟨heap', sink', clock'⟩⟩ := c'
  obtain ⟨henv, hstack, hheap, hsink, hclock⟩ := h
  -- The texts and the sinks are the same, so one write serves both.
  cases hsink
  unfold Config.print
  rw [hv.shown]
  simp only [Config.write]
  cases (Sink.write sink (v.shown ++ "\n")).2 with
  | none =>
    refine done ?_
    exact ⟨henv, hstack, hheap, rfl, hclock⟩
  | some fault =>
    refine signal ?_ (.raised (.sink fault))
    exact ⟨henv, hstack, hheap, rfl, hclock⟩

theorem runAll (h : c.Around N T c') {ss ss' : List Stmt} (hs : Stmt.AlikeAll N T ss ss') :
    (c.runAll ss).Alike N T (c'.runAll ss') := by
  cases hs with
  | nil => exact h.done
  | cons hs hrest => exact h.execThen hs (.sequence hrest)

theorem runBlock (h : c.Around N T c') {ss ss' : List Stmt} (hs : Stmt.AlikeAll N T ss ss') :
    (c.runBlock ss).Alike N T (c'.runBlock ss') := by
  unfold Config.runBlock
  rw [h.env]
  exact h.within c.env .nil hs (.scope c.env)

theorem exec? (h : c.Around N T c') {s s' : Option Stmt} (hs : Option.Rel (Stmt.Alike N T) s s') :
    (c.exec? s).Alike N T (c'.exec? s') := by
  cases hs with
  | none => exact h.done
  | some hs => exact h.exec hs

/-! ## Starting work -/

include hd in
theorem startExpr (h : c.Around N T c') {e e' : Expr} (he : e.Alike N T e') :
    (c.startExpr d e).Alike N T (c'.startExpr d' e') := by
  cases he with
  | constant value => exact h.give (.ofConstant value)
  | grouping he => exact h.eval he
  | unary hop hk he => exact h.evalThen he (.unary hop hk)
  | binary hl hop hk hr => exact h.evalThen hl (.binaryLeft hop hk hr)
  | logical hl hop hr => exact h.evalThen hl (.logical hop hr)
  | var hid hname => exact h.read hd hid hname.rel
  | assign hid hname he => exact h.evalThen he (.assign hid hname)
  | call he hparen hs => exact h.evalThen he (.callee hparen hs)
  | get he hname => exact h.evalThen he (.get hname)
  | set he hname hv => exact h.evalThen he (.setObject hname hv)
  | this hid hk => exact h.read hd hid hk
  | super hid hk hm => exact h.superMethod hd hid hk hm

theorem superclassSite {name name' : Token} (hname : T.rel name name') {e e' : Expr}
    (he : e.Alike N T e') :
    T.rel (Config.superclassSite name e) (Config.superclassSite name' e') := by
  cases he with
  | var _ hparent => exact hparent.rel
  | _ => exact hname

theorem startStmt (h : c.Around N T c') {s s' : Stmt} (hs : s.Alike N T s') :
    (c.startStmt s).Alike N T (c'.startStmt s') := by
  cases hs with
  | expression he => exact h.evalThen he .discard
  | print he => exact h.evalThen he .print
  | varDecl hname hv =>
    cases hv with
    | none => exact h.declareVar hname.rel .nil
    | some he => exact h.evalThen he (.define hname)
  | block hs => exact h.runBlock hs
  | ifOnly hc hs => exact h.evalThen hc (.branch hs .none)
  | ifElse hc hs ht => exact h.evalThen hc (.branch hs (.some ht))
  | loop hc hs => exact h.evalThen hc (.loopTest hc hs)
  | funDecl hf => exact h.declareFunction hf
  | ret hk hv =>
    cases hv with
    | none => exact h.signal (.returned .nil)
    | some he => exact h.evalThen he .ret
  | classDecl hname hp hm =>
    cases hp with
    | none => exact h.declareClass hname.rel .none hm
    | some he =>
      exact h.evalThen he (.superclass hname (superclassSite hname.rel he) hm)

end Config.Around

/-! ## Operators -/

section

variable {v v' w w' : Value}

theorem applyUnary_alike (op : Kind) (hv : v.Alike N T v') :
    applyUnary op v' = applyUnary op v := by
  unfold applyUnary
  rw [hv.truthy]
  cases hv <;> rfl

theorem applyBinary_alike (op : Kind) (hv : v.Alike N T v') (hw : w.Alike N T w') :
    applyBinary op v' w' = applyBinary op v w := by
  unfold applyBinary
  rw [hv.equals hw]
  cases hv <;> cases hw <;> rfl

theorem settles_alike (op : Kind) (hv : v.Alike N T v') : settles op v' = settles op v := by
  rw [settles, settles, hv.truthy]

/-- Operators give numbers, truth values and texts only. -/
theorem alike_of_applyUnary {op : Kind} (h : applyUnary op v = .ok w) : w.Alike N T w := by
  unfold applyUnary at h
  split at h
  · split at h
    · cases h
      exact .number _
    · cases h
  · cases h
    exact .bool _
  · cases h

theorem alike_of_applyNumeric {op : Kind} {a b : Float} (h : applyNumeric op a b = .ok w) :
    w.Alike N T w := by
  unfold applyNumeric at h
  split at h
  all_goals cases h
  all_goals first | exact .number _ | exact .bool _

theorem alike_of_applyBinary {op : Kind} {r : Value} (h : applyBinary op v w = .ok r) :
    r.Alike N T r := by
  unfold applyBinary at h
  split at h
  · cases h
    exact .bool _
  · cases h
    exact .bool _
  · unfold add at h
    split at h
    · cases h
      exact .number _
    · cases h
      exact .text _
    · cases h
  · split at h
    · exact alike_of_applyNumeric h
    · cases h

end

namespace Config.Around

variable {c c' : Config}

theorem giveOr (h : c.Around N T c') {site site' : Token} (hs : T.rel site site')
    {r : Except RuntimeFault Value} (hr : ∀ v, r = .ok v → v.Alike N T v) :
    (c.giveOr site r).Alike N T (c'.giveOr site' r) := by
  cases r with
  | ok v => exact h.give (hr v rfl)
  | error fault => exact h.raise hs fault

theorem onValue (h : c.Around N T c') {s s' : Signal} (hs : s.Alike N T s')
    {go go' : Config → Value → Config}
    (hgo : ∀ v v', v.Alike N T v' → (go c v).Alike N T (go' c' v')) :
    (c.onValue s go).Alike N T (c'.onValue s' go') := by
  cases hs with
  | value hv => exact hgo _ _ hv
  | done => exact h.signal .done
  | returned hv => exact h.signal (.returned hv)
  | raised he => exact h.signal (.raised he)

theorem onDone (h : c.Around N T c') {s s' : Signal} (hs : s.Alike N T s')
    {go go' : Config → Config} (hgo : (go c).Alike N T (go' c')) :
    (c.onDone s go).Alike N T (c'.onDone s' go') := by
  cases hs with
  | value hv => exact h.signal (.value hv)
  | done => exact hgo
  | returned hv => exact h.signal (.returned hv)
  | raised he => exact h.signal (.raised he)

/-! ## Going on after a signal -/

theorem back (h : c.Around N T c') (saved : Env) :
    Around N T { c with env := saved } { c' with env := saved } :=
  ⟨rfl, h.stack, h.world⟩

variable {d d' : Scoping.Distances} (hd : ∀ id id', N id id' → d'[id']? = d[id]?)
include hd

theorem resume (h : c.Around N T c') {s s' : Signal} (hs : s.Alike N T s') {f f' : Frame}
    (hf : f.Alike N T f') : (c.resume d s f).Alike N T (c'.resume d' s' f') := by
  unfold Config.resume
  -- Values that are alike are both true or both false, so the two sides take the same branches.
  cases hf with
  | unary hop hk =>
    refine h.onValue hs fun v v' hv => ?_
    rw [T.kind hop, applyUnary_alike _ hv]
    exact h.giveOr hop fun _ => alike_of_applyUnary
  | binaryLeft hop hk hr =>
    exact h.onValue hs fun v v' hv => h.evalThen hr (.binaryRight hv hop hk)
  | binaryRight hl hop hk =>
    refine h.onValue hs fun v v' hv => ?_
    rw [T.kind hop, applyBinary_alike _ hl hv]
    exact h.giveOr hop fun _ => alike_of_applyBinary
  | logical hop hr =>
    refine h.onValue hs fun v v' hv => ?_
    rw [T.kind hop, settles_alike _ hv]
    split
    · exact h.give hv
    · exact h.eval hr
  | assign hid hname => exact h.onValue hs fun v v' hv => h.assign hd hid hname.rel hv
  | callee hparen ha => exact h.onValue hs fun v v' hv => h.callWith hv hparen .nil ha
  | argument hcallee hparen hb ha =>
    refine h.onValue hs fun v v' hv => ?_
    exact h.callWith hcallee hparen (List.rel_append hb (.cons hv .nil)) ha
  | get hname => exact h.onValue hs fun v v' hv => h.property hname hv
  | setObject hname he =>
    refine h.onValue hs fun v v' hv => ?_
    cases hv with
    | object ho => exact h.evalThen he (.setValue ho hname)
    | _ => exact h.raise hname _
  | @setValue o o' name name' ho hname =>
    refine h.onValue hs fun v v' hv => ?_
    refine give (h.mapHeap ?_) hv
    rw [T.lexeme hname]
    exact h.heap.setField ho _ hv
  | discard => exact h.onValue hs fun v v' hv => h.done
  | print => exact h.onValue hs fun v v' hv => h.print hv
  | define hname => exact h.onValue hs fun v v' hv => h.declareVar hname.rel hv
  | branch ht he =>
    refine h.onValue hs fun v v' hv => ?_
    rw [hv.truthy]
    split
    · exact h.exec ht
    · exact h.exec? he
  | loopTest hc hb =>
    refine h.onValue hs fun v v' hv => ?_
    rw [hv.truthy]
    split
    · exact h.execThen hb (.loopBody hc hb)
    · exact h.done
  | loopBody hc hb => exact h.onDone hs (h.evalThen hc (.loopTest hc hb))
  | sequence hss => exact h.onDone hs (h.runAll hss)
  | ret => exact h.onValue hs fun v v' hv => h.signal (.returned hv)
  | superclass hname hsite hm =>
    refine h.onValue hs fun v v' hv => ?_
    cases hv with
    | class_ hk => exact h.declareClass hname.rel (.some hk) hm
    | _ => exact h.raise hsite _
  | scope saved => exact (h.back saved).signal hs
  | call saved hf =>
    cases hs with
    | value hv => exact (h.back saved).signal (.value hv)
    | done => exact (h.back saved).finish hf .nil
    | returned hv => exact (h.back saved).finish hf hv
    | raised he => exact (h.back saved).signal (.raised he)
  | construct ho => exact h.onValue hs fun v v' hv => h.give (.object ho)

end Config.Around

/-! ## Steps and runs -/

namespace Config.Alike

variable {c c' : Config}

theorem result? (h : c.Alike N T c') :
    Option.Rel (Signal.Alike N T) c.result? c'.result? := by
  obtain ⟨⟨-, hstack, -⟩, hcontrol⟩ := h
  unfold Config.result?
  generalize c.control = k at hcontrol ⊢
  generalize c'.control = k' at hcontrol ⊢
  generalize c.stack = st at hstack ⊢
  generalize c'.stack = st' at hstack ⊢
  cases hcontrol with
  | signal hs =>
    cases hstack with
    | nil => exact .some hs
    | cons _ _ => exact .none
  | eval _ => exact .none
  | exec _ => exact .none

variable {d d' : Scoping.Distances} (hd : ∀ id id', N id id' → d'[id']? = d[id]?)
include hd

/-- Alike configurations make alike steps. -/
theorem step (h : c.Alike N T c') : (Machine.step d c).Alike N T (Machine.step d' c') := by
  obtain ⟨control, env, stack, world⟩ := c
  obtain ⟨control', env', stack', world'⟩ := c'
  obtain ⟨⟨henv, hstack, hworld⟩, hcontrol⟩ := h
  cases hcontrol with
  | eval he => exact Around.startExpr hd ⟨henv, hstack, hworld⟩ he
  | exec hs => exact Around.startStmt ⟨henv, hstack, hworld⟩ hs
  | @signal s s' hs =>
    cases hstack with
    | nil => exact ⟨⟨henv, .nil, hworld⟩, .signal hs⟩
    | @cons _ _ rest rest' hf hrest =>
      have haround : Around N T ⟨.signal s, env, rest, world⟩ ⟨.signal s', env', rest', world'⟩ :=
        ⟨henv, hrest, hworld⟩
      exact haround.resume hd hs hf

theorem iterate (h : c.Alike N T c') (n : Nat) :
    ((Machine.step d)^[n] c).Alike N T ((Machine.step d')^[n] c') := by
  induction n generalizing c c' with
  | zero => exact h
  | succ n ih =>
    rw [Function.iterate_succ_apply, Function.iterate_succ_apply]
    exact ih (h.step hd)

/-- Alike configurations run equally long, and come to alike ends. -/
theorem run (h : c.Alike N T c') (fuel : Nat) :
    Option.Rel (fun r r' => r.1.Alike N T r'.1 ∧ r.2.Alike N T r'.2) (Machine.run d fuel c)
      (Machine.run d' fuel c') := by
  induction fuel generalizing c c' with
  | zero =>
    have hresult := h.result?
    unfold Machine.run
    generalize c.result? = x at hresult ⊢
    generalize c'.result? = x' at hresult ⊢
    cases hresult with
    | none => exact .none
    | some hs => exact .some ⟨hs, h⟩
  | succ fuel ih =>
    have hresult := h.result?
    unfold Machine.run
    generalize c.result? = x at hresult ⊢
    generalize c'.result? = x' at hresult ⊢
    cases hresult with
    | none => exact ih (h.step hd)
    | some hs => exact .some ⟨hs, h⟩

end Config.Alike

end Machine

end Lox
