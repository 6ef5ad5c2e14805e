import Lox.Proofs.Heap.Layout
import Lox.Proofs.Machine.Preservation

/-!
# Runs keep to a layout

Every environment, object and class that a run holds on to, be it in the heap, in a frame or in a
signal, keeps to the layout of the heap (`Config.In`). A step may make new scopes, objects and ids,
and the layout grows with them (`Config.In.step`); nothing that was laid out before changes its
place.
-/

namespace Lox

namespace Machine

/-! ## Configurations -/

section

variable (l : Layout)

/-- What waits in a frame. -/
def Frame.In : Frame → Prop
  | .binaryRight left _ => left.In l
  | .argument f _ before _ => f.In l ∧ ∀ v ∈ before, v.In l
  | .setValue o _ | .construct o => o.In l
  | .scope saved => saved.Follows l.links
  | .call code saved => code.In l ∧ saved.Follows l.links
  | _ => True

def Signal.In : Signal → Prop
  | .value v | .returned v => v.In l
  | .done | .raised _ => True

def Control.In : Control → Prop
  | .signal s => s.In l
  | .eval _ | .exec _ => True

namespace Config

/-- The heap, the environment and the frames keep to a layout. -/
structure Laid (c : Config) : Prop where
  heap : c.heap.In l
  env : c.env.Follows l.links
  stack : ∀ f ∈ c.stack, f.In l

/-- The same, and so does what has just been found. -/
structure In (c : Config) : Prop extends Laid l c where
  control : c.control.In l

/-- A configuration keeps to a layout with more in it. -/
def Stays (c : Config) : Prop := ∃ l', l.Grows l' ∧ c.In l'

end Config

end

variable {l l' : Layout} {c : Config} {d : Scoping.Distances}

theorem Frame.In.grows {f : Frame} (hf : f.In l) (hg : l.Grows l') : f.In l' := by
  cases f with
  | binaryRight left op => exact Value.In.grows hg hf
  | argument callee paren before after =>
    exact ⟨hf.1.grows hg, fun v hv => (hf.2 v hv).grows hg⟩
  | setValue o name => exact Object.In.grows hg hf
  | construct o => exact Object.In.grows hg hf
  | scope saved => exact Env.Follows.grows hg hf
  | call code saved => exact ⟨hf.1.grows hg, Env.Follows.grows hg hf.2⟩
  | _ => trivial

namespace Config

theorem In.stays (hc : c.In l) : c.Stays l := ⟨l, .refl l, hc⟩

theorem Stays.grows (hg : l.Grows l') (hc : c.Stays l') : c.Stays l := by
  obtain ⟨l'', hg', hin⟩ := hc
  exact ⟨l'', hg.trans hg', hin⟩

namespace Laid

variable (hc : c.Laid l)
include hc

/-! ## Signals and frames -/

theorem signal {s : Signal} (hs : s.In l) : (c.signal s).Stays l :=
  In.stays ⟨⟨hc.heap, hc.env, hc.stack⟩, hs⟩

theorem give {v : Value} (hv : v.In l) : (c.give v).Stays l := hc.signal hv

theorem done : c.done.Stays l := hc.signal trivial

theorem raise (site : Token) (fault : RuntimeFault) : (c.raise site fault).Stays l :=
  hc.signal trivial

theorem eval (e : Expr) : Stays l { c with control := .eval e } :=
  In.stays ⟨⟨hc.heap, hc.env, hc.stack⟩, trivial⟩

theorem exec (s : Stmt) : Stays l { c with control := .exec s } :=
  In.stays ⟨⟨hc.heap, hc.env, hc.stack⟩, trivial⟩

theorem push {f : Frame} (hf : f.In l) : Laid l { c with stack := f :: c.stack } :=
  ⟨hc.heap, hc.env, List.forall_mem_cons.2 ⟨hf, hc.stack⟩⟩

theorem evalThen (e : Expr) {f : Frame} (hf : f.In l) : (c.evalThen e f).Stays l :=
  (hc.push hf).eval e

theorem execThen (s : Stmt) {f : Frame} (hf : f.In l) : (c.execThen s f).Stays l :=
  (hc.push hf).exec s

/-! ## The heap -/

theorem onHeap {α : Type} {f : Heap → α × Heap} (hg : l.Grows l') (hf : (f c.heap).2.In l') :
    (c.onHeap f).2.Laid l' :=
  ⟨hf, hc.env.grows hg, fun frame hframe => (hc.stack frame hframe).grows hg⟩

theorem mapHeap {f : Env → Heap → Heap} (hg : l.Grows l') (hf : (f c.env c.heap).In l') :
    (c.mapHeap f).Laid l' :=
  ⟨hf, hc.env.grows hg, fun frame hframe => (hc.stack frame hframe).grows hg⟩

/-! ## Names -/

theorem read (id : NodeId) (name : Token) : (c.read d id name).Stays l := by
  unfold Config.read
  split
  · next v hv =>
    obtain ⟨s, hr⟩ := read_of_lookUp hv
    exact hc.give (hc.heap.scopes hr)
  · exact hc.raise _ _

theorem assign (id : NodeId) (name : Token) {v : Value} (hv : v.In l) :
    (c.assign d id name v).Stays l := by
  unfold Config.assign
  split
  · next s _ =>
    have hheap := hc.heap.write s name.lexeme hv
    exact (hc.mapHeap (f := fun _ h => h.write s name.lexeme v) (.refl l) hheap).give hv
  · exact hc.raise _ _

theorem giveMethod {method : Closure} (hm : method.In l) {o : Object} (ho : o.In l) :
    (c.giveMethod method o).Stays l := by
  obtain ⟨hcode, hheap⟩ := hc.heap.bind hm ho
  obtain ⟨hv, hheap⟩ := hheap.newFunction hcode
  have hg := (Layout.grows_nest hm).trans (Layout.grows_addId _)
  exact ((hc.onHeap (f := (·.boundMethod method o)) hg hheap).give hv).grows hg

theorem superMethod (id : NodeId) (keyword method : Token) :
    (c.superMethod d id keyword method).Stays l := by
  unfold Config.superMethod
  split
  · exact hc.raise _ _
  · next hops _ =>
    split
    · next parent hparent =>
      split
      · next o ho =>
        split
        · next found hfound =>
          obtain ⟨s, -, hread⟩ := Option.bind_eq_some_iff.1 hparent
          -- Both values are read from scopes of the heap.
          have hk : parent.In l := hc.heap.scopes hread
          have hthis : o.In l := by
            split at ho
            · cases ho
            · obtain ⟨s', -, hread'⟩ := Option.bind_eq_some_iff.1 ho
              exact hc.heap.scopes hread'
          exact hc.giveMethod (hk.method hfound) hthis
        · exact hc.raise _ _
      · exact hc.raise _ _
    · exact hc.raise _ _

theorem property (name : Token) {v : Value} (hv : v.In l) : (c.property name v).Stays l := by
  cases v with
  | object o =>
    have ho : o.In l := hv
    rw [Config.property]
    split
    · next w hw => exact hc.give (hc.heap.fields hw)
    · split
      · next found hfound => exact hc.giveMethod (ho.class_.method hfound) ho
      · exact hc.raise _ _
  | _ => exact hc.raise _ _

/-! ## Calls -/

/-- The new scope stands inside `outer`, and the frame that leaves it has the environment of the
call. -/
theorem within {outer : Env} (houter : outer.Follows l.links) {b : Bindings Value}
    (hb : ∀ n v, b.get? n = some v → v.In l) (ss : List Stmt) {leave : Frame} (hl : leave.In l) :
    (c.within outer b ss leave).Stays l := by
  obtain ⟨henv, hheap⟩ := hc.heap.nest houter hb
  have hg := Layout.grows_nest houter
  refine ⟨_, hg, ⟨hheap, henv, ?_⟩, trivial⟩
  exact List.forall_mem_cons.2 ⟨trivial, List.forall_mem_cons.2
    ⟨hl.grows hg, fun frame hf => (hc.stack frame hf).grows hg⟩⟩

theorem enter {code : Closure} (hcode : code.In l) {arguments : List Value}
    (ha : ∀ v ∈ arguments, v.In l) : (c.enter code arguments).Stays l := by
  have hleave : Frame.In l (.call code c.env) := ⟨hcode, hc.env⟩
  refine hc.within hcode ?_ _ hleave
  intro n v hv
  rcases mem_of_get?_foldl_insert _ _ _ _ _ hv with hmem | hnil
  · exact ha v hmem
  · cases hnil

theorem finish (code : Closure) {v : Value} (hv : v.In l) : (c.finish code v).Stays l := by
  unfold Config.finish
  split
  · split
    · next this hthis =>
      obtain ⟨s, -, hread⟩ := Option.bind_eq_some_iff.1 hthis
      exact hc.give (hc.heap.scopes hread)
    · exact hc.raise _ _
  · exact hc.give hv

theorem instantiate {k : Class} (hk : k.In l) {arguments : List Value}
    (ha : ∀ v ∈ arguments, v.In l) : (c.instantiate k arguments).Stays l := by
  obtain ⟨ho, hheap⟩ := hc.heap.newObject hk
  have hobject := hc.onHeap (f := (·.newObject k)) l.grows_addObject hheap
  -- The layout grows twice, by the object and by the scope of `this`.
  apply Stays.grows l.grows_addObject
  unfold Config.instantiate
  dsimp only
  split
  · exact hobject.give (v := .object _) ho
  · next init hinit =>
    have hm : init.In l.addObject := (hk.method hinit).grows l.grows_addObject
    obtain ⟨hcode, hheap⟩ := hheap.bind hm ho
    have hg := Layout.grows_nest hm
    have hbound := hobject.onHeap (f := (·.bind init (c.heap.newObject k).1)) hg hheap
    apply Stays.grows hg
    apply (hbound.push (f := .construct _) (ho.grows hg)).enter hcode
    intro v hv
    exact ((ha v hv).grows l.grows_addObject).grows hg

theorem call {callee : Value} (hcallee : callee.In l) (paren : Token) {arguments : List Value}
    (ha : ∀ v ∈ arguments, v.In l) : (c.call callee paren arguments).Stays l := by
  unfold Config.call
  split
  · exact hc.raise _ _
  · split
    · cases callee with
      | builtin f =>
        cases f with
        | clock => exact In.stays ⟨⟨hc.heap, hc.env, hc.stack⟩, trivial⟩
      | function id code => exact hc.enter hcallee.2 ha
      | class_ k => exact hc.instantiate hcallee ha
      | _ => exact hc.raise _ _
    · exact hc.raise _ _

theorem callWith {callee : Value} (hcallee : callee.In l) (paren : Token) {before : List Value}
    (hb : ∀ v ∈ before, v.In l) (after : List Expr) :
    (c.callWith callee paren before after).Stays l := by
  cases after with
  | nil => exact hc.call hcallee paren hb
  | cons e after => exact hc.evalThen e ⟨hcallee, hb⟩

/-! ## Statements -/

theorem print (v : Value) : (c.print v).Stays l := by
  simp only [Config.print, Config.write]
  split
  · next heq =>
    obtain ⟨-, rfl⟩ := Prod.mk.inj heq
    exact In.stays ⟨⟨hc.heap, hc.env, hc.stack⟩, trivial⟩
  · next heq =>
    obtain ⟨-, rfl⟩ := Prod.mk.inj heq
    exact In.stays ⟨⟨hc.heap, hc.env, hc.stack⟩, trivial⟩

theorem declareVar (name : Token) {v : Value} (hv : v.In l) : (c.declareVar name v).Stays l :=
  (hc.mapHeap (f := fun env h => h.define env name.lexeme v) (.refl l)
    (hc.heap.define c.env name.lexeme hv)).done

theorem declareFunction (decl : FunctionDecl) : (c.declareFunction decl).Stays l :=
  ((hc.mapHeap (f := fun env h => h.declareFunction env decl) l.grows_addId
    (hc.heap.declareFunction hc.env decl)).done).grows l.grows_addId

theorem declareClass (name : Token) {parent : Option Class} (hp : ∀ k ∈ parent, k.In l)
    (methods : List FunctionDecl) : (c.declareClass name parent methods).Stays l := by
  obtain ⟨l', hg, hheap⟩ := hc.heap.declareClass hc.env name.lexeme hp methods
  apply Stays.grows hg
  exact (hc.mapHeap (f := fun env h => h.declareClass env name.lexeme parent methods) hg
    hheap).done

theorem runAll (ss : List Stmt) : (c.runAll ss).Stays l := by
  cases ss with
  | nil => exact hc.done
  | cons s rest => exact hc.execThen s trivial

theorem startExpr (e : Expr) : (c.startExpr d e).Stays l := by
  cases e with
  | constant k => exact hc.give (Value.in_ofConstant l k)
  | grouping inner => exact hc.eval inner
  | var id name => exact hc.read id name
  | this id keyword => exact hc.read id keyword
  | super id keyword method => exact hc.superMethod id keyword method
  | _ => exact hc.evalThen _ trivial

theorem startStmt (s : Stmt) : (c.startStmt s).Stays l := by
  cases s with
  | expression e => exact hc.evalThen e trivial
  | print e => exact hc.evalThen e trivial
  | varDecl name value =>
    cases value with
    | none => exact hc.declareVar name (v := .nil) trivial
    | some e => exact hc.evalThen e trivial
  | block ss =>
    have hleave : Frame.In l (.scope c.env) := hc.env
    exact hc.within hc.env (b := []) nofun ss hleave
  | branch condition thenBranch elseBranch => exact hc.evalThen condition trivial
  | loop condition body => exact hc.evalThen condition trivial
  | funDecl f => exact hc.declareFunction f
  | ret keyword value =>
    cases value with
    | none => exact hc.signal (s := .returned .nil) trivial
    | some e => exact hc.evalThen e trivial
  | classDecl name superclass methods =>
    cases superclass with
    | none => exact hc.declareClass name (fun k hk => absurd hk (Option.not_mem_none k)) methods
    | some e => exact hc.evalThen e trivial

/-! ## Going on after a signal -/

theorem giveOr (site : Token) {r : Except RuntimeFault Value} (hr : ∀ v, r = .ok v → v.In l) :
    (c.giveOr site r).Stays l := by
  cases r with
  | ok v => exact hc.give (hr v rfl)
  | error fault => exact hc.raise site fault

theorem applyUnary (op : Token) (v : Value) :
    (c.giveOr op (Machine.applyUnary op.kind v)).Stays l := by
  apply hc.giveOr
  intro w hw
  obtain ⟨k, rfl⟩ := constant_of_applyUnary hw
  exact Value.in_ofConstant l k

theorem applyBinary (op : Token) (left right : Value) :
    (c.giveOr op (Machine.applyBinary op.kind left right)).Stays l := by
  apply hc.giveOr
  intro w hw
  obtain ⟨k, rfl⟩ := constant_of_applyBinary hw
  exact Value.in_ofConstant l k

theorem onValue {s : Signal} (hs : s.In l) {go : Config → Value → Config}
    (hgo : ∀ v, v.In l → (go c v).Stays l) : (c.onValue s go).Stays l := by
  cases s with
  | value v => exact hgo v hs
  | _ => exact hc.signal hs

theorem onDone {s : Signal} (hs : s.In l) {go : Config → Config} (hgo : (go c).Stays l) :
    (c.onDone s go).Stays l := by
  cases s with
  | done => exact hgo
  | _ => exact hc.signal hs

/-- Handing a signal to a frame. -/
theorem resume {s : Signal} (hs : s.In l) {f : Frame} (hf : f.In l) :
    (c.resume d s f).Stays l := by
  unfold Config.resume
  -- What a frame holds was in the layout when the frame was put there, and layouts only grow.
  cases f with
  | unary op => exact hc.onValue hs fun v _ => hc.applyUnary op v
  | binaryLeft op right => exact hc.onValue hs fun v hv => hc.evalThen right hv
  | binaryRight left op => exact hc.onValue hs fun v _ => hc.applyBinary op left v
  | logical op right =>
    apply hc.onValue hs
    intro v hv
    split
    · exact hc.give hv
    · exact hc.eval right
  | assign id name => exact hc.onValue hs fun v hv => hc.assign id name hv
  | callee paren arguments =>
    exact hc.onValue hs fun v hv => hc.callWith hv paren (List.forall_mem_nil _) arguments
  | argument callee paren before after =>
    apply hc.onValue hs
    intro v hv
    apply hc.callWith hf.1
    exact List.forall_mem_append.2 ⟨hf.2, List.forall_mem_singleton.2 hv⟩
  | get name => exact hc.onValue hs fun v hv => hc.property name hv
  | setObject name value =>
    apply hc.onValue hs
    intro v hv
    cases v with
    | object o => exact hc.evalThen value hv
    | _ => exact hc.raise _ _
  | setValue o name =>
    apply hc.onValue hs
    intro v hv
    exact (hc.mapHeap (f := fun _ h => h.setField o name.lexeme v) (.refl l)
      (hc.heap.setField o name.lexeme hv)).give hv
  | discard => exact hc.onValue hs fun v _ => hc.done
  | print => exact hc.onValue hs fun v _ => hc.print v
  | define name => exact hc.onValue hs fun v hv => hc.declareVar name hv
  | branch thenBranch elseBranch =>
    apply hc.onValue hs
    intro v _
    split
    · exact hc.exec thenBranch
    · cases elseBranch with
      | none => exact hc.done
      | some other => exact hc.exec other
  | loopTest condition body =>
    apply hc.onValue hs
    intro v _
    split
    · exact hc.execThen body trivial
    · exact hc.done
  | loopBody condition body => exact hc.onDone hs (hc.evalThen condition trivial)
  | sequence ss => exact hc.onDone hs (hc.runAll ss)
  | ret => exact hc.onValue hs fun v hv => hc.signal (s := .returned v) hv
  | superclass name site methods =>
    apply hc.onValue hs
    intro v hv
    cases v with
    | class_ parent =>
      apply hc.declareClass name
      intro k hk
      cases hk
      exact hv
    | _ => exact hc.raise _ _
  | scope saved =>
    have hback : Laid l { c with env := saved } := ⟨hc.heap, hf, hc.stack⟩
    exact hback.signal hs
  | call code saved =>
    have hback : Laid l { c with env := saved } := ⟨hc.heap, hf.2, hc.stack⟩
    cases s with
    | done => exact hback.finish code (v := .nil) trivial
    | returned v => exact hback.finish code hs
    | value v => exact hback.signal hs
    | raised e => exact hback.signal hs
  | construct o => exact hc.onValue hs fun v _ => hc.give (v := .object o) hf

end Laid

/-- A step keeps to the layout, which may grow. -/
theorem In.step (hc : c.In l) : (step d c).Stays l := by
  obtain ⟨control, env, stack, world⟩ := c
  cases control with
  | eval e => exact hc.startExpr e
  | exec s => exact hc.startStmt s
  | signal s =>
    cases stack with
    | nil => exact hc.stays
    | cons f stack =>
      obtain ⟨hf, hstack⟩ := List.forall_mem_cons.1 hc.stack
      exact Laid.resume (c := ⟨_, env, stack, world⟩) ⟨hc.heap, hc.env, hstack⟩ hc.control hf

/-- So does every run. -/
theorem In.iterate (hc : c.In l) (n : Nat) : ((Machine.step d)^[n] c).Stays l := by
  induction n generalizing c l with
  | zero => exact hc.stays
  | succ n ih =>
    obtain ⟨l', hg, hstep⟩ := hc.step (d := d)
    exact (ih hstep).grows hg

end Config

end Machine

end Lox
