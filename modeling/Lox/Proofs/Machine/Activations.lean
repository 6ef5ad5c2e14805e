import Lox.Proofs.Heap.Activations
import Lox.Proofs.Machine.Inside
import Lox.Proofs.Machine.Receivers

/-!
# Runs keep methods with their classes and objects

At every moment of a run, code that holds a `super` is in an activation of its method, be it the
code at hand, in a frame or in a function (`Config.Placed`), and the receivers of a heap from before
are still there. A step may declare a class (`Config.Declares`), and then this class stands in the
heap from there on.

Main statement: a step keeps it so (`Config.Placed.step`), as long as the declarations of classes
are taken down and the names in the code are spelled as their kinds say.
-/

namespace Lox

namespace Machine

/-- The class that a declaration makes. -/
def Config.classOf (c : Config) (name : Token) (parent : Option Class)
    (methods : List FunctionDecl) : Class :=
  ((c.heap.define c.env name.lexeme .nil).newClass c.env name.lexeme parent methods).1

/-- At this moment the machine declares a class with a superclass and methods. -/
inductive Config.Declares (c : Config) : Class → Option Class → List FunctionDecl → Prop
  | root {name : Token} {methods : List FunctionDecl} :
      c.control = .exec (.classDecl name none methods) →
      Declares c (c.classOf name none methods) none methods
  | heir {name site : Token} {methods : List FunctionDecl} {rest : List Frame} {parent : Class} :
      c.control = .signal (.value (.class_ parent)) →
      c.stack = .superclass name site methods :: rest →
      Declares c (c.classOf name (some parent) methods) (some parent) methods

/-! ## Configurations -/

section

variable (D : Class → Option Class → List FunctionDecl → Prop) (h : Heap)

/-- What waits in a frame that is resumed in an environment. -/
def Frame.Placed (env : Env) : Frame → Prop
  | .binaryLeft _ right | .logical _ right => (Part.expr right).Placed D h env
  | .binaryRight left _ => left.Placed D h
  | .callee _ arguments => ∀ e ∈ arguments, (Part.expr e).Placed D h env
  | .argument f _ before after =>
    f.Placed D h ∧ (∀ v ∈ before, v.Placed D h) ∧ ∀ e ∈ after, (Part.expr e).Placed D h env
  | .setObject _ value => (Part.expr value).Placed D h env
  | .setValue o _ | .construct o => o.class_.Stands D h
  | .branch thenBranch elseBranch =>
    (Part.stmt thenBranch).Placed D h env ∧ ∀ s ∈ elseBranch, (Part.stmt s).Placed D h env
  | .loopTest condition body | .loopBody condition body =>
    (Part.expr condition).Placed D h env ∧ (Part.stmt body).Placed D h env
  | .sequence ss => ∀ s ∈ ss, (Part.stmt s).Placed D h env
  | .unary _ | .assign _ _ | .get _ | .discard | .print | .define _ | .ret | .superclass _ _ _
  | .scope _ | .call _ _ => True

def Signal.Placed : Signal → Prop
  | .value v | .returned v => v.Placed D h
  | .done | .raised _ => True

def Control.Placed (env : Env) : Control → Prop
  | .eval e => (Part.expr e).Placed D h env
  | .exec s => (Part.stmt s).Placed D h env
  | .signal s => s.Placed D h

/-- Each frame is resumed in an environment in which programs declare names. -/
def StackPlaced : Env → List Frame → Prop
  | env, [] => env.Open h
  | env, f :: rest => env.Open h ∧ f.Placed D h env ∧ StackPlaced (f.saved?.getD env) rest

namespace Config

/-- The heap and the frames are in order, and the receivers of the heap `h` stay. -/
structure Ready (c : Config) : Prop where
  heap : c.heap.Placed D
  keeps : h.Keeps c.heap
  stack : StackPlaced D c.heap c.env c.stack

/-- The same, and so is the work at hand. -/
structure Placed (c : Config) : Prop extends Ready D h c where
  control : c.control.Placed D c.heap c.env

end Config

end

variable {D : Class → Option Class → List FunctionDecl → Prop} {h h' : Heap} {c : Config}
  {env : Env} {d : Scoping.Distances}

theorem Frame.Placed.keep {f : Frame} (hf : f.Placed D h env) (hk : h.Keeps h') :
    f.Placed D h' env := by
  cases f with
  | binaryLeft op right => exact Part.Placed.keep hf hk
  | logical op right => exact Part.Placed.keep hf hk
  | binaryRight left op => exact Value.Placed.keep hf hk
  | callee paren arguments => exact fun e he => (hf e he).keep hk
  | argument callee paren before after =>
    exact ⟨hf.1.keep hk, fun v hv => (hf.2.1 v hv).keep hk, fun e he => (hf.2.2 e he).keep hk⟩
  | setObject name value => exact Part.Placed.keep hf hk
  | setValue o name => exact Class.Stands.keep hf hk
  | construct o => exact Class.Stands.keep hf hk
  | branch thenBranch elseBranch => exact ⟨hf.1.keep hk, fun s hs => (hf.2 s hs).keep hk⟩
  | loopTest condition body => exact ⟨hf.1.keep hk, hf.2.keep hk⟩
  | loopBody condition body => exact ⟨hf.1.keep hk, hf.2.keep hk⟩
  | sequence ss => exact fun s hs => (hf s hs).keep hk
  | unary | assign | get | discard | print | define | ret | superclass | scope | call => trivial

theorem StackPlaced.keep {stack : List Frame} (hs : StackPlaced D h env stack)
    (hk : h.Keeps h') : StackPlaced D h' env stack := by
  induction stack generalizing env with
  | nil => exact Env.Open.keep hs hk
  | cons f rest ih =>
    obtain ⟨henv, hf, hrest⟩ := hs
    exact ⟨henv.keep hk, hf.keep hk, ih hrest⟩

theorem StackPlaced.open {stack : List Frame} (hs : StackPlaced D h env stack) : env.Open h := by
  cases stack with
  | nil => exact hs
  | cons f rest => exact hs.1

/-- A name that is no identifier is no parameter. -/
theorem Config.bindParams_eq_none {params params' : List Token}
    (hp : List.Forall₂ (Likeness.spelled.Of .identifier) params params') {n : String}
    (hn : Kind.ofWord n ≠ .identifier) (arguments : List Value) :
    (bindParams params arguments).get? n = none := by
  have hgen : ∀ b : Bindings Value, b.get? n = none →
      ((params.zip arguments).foldl (fun b p => b.insert p.1.lexeme p.2) b).get? n = none := by
    induction hp generalizing arguments with
    | nil => exact fun b hb => hb
    | @cons name _ _ _ hname _ ih =>
      cases arguments with
      | nil => exact fun b hb => hb
      | cons w arguments =>
        intro b hb
        apply ih
        rw [Bindings.get?_insert, if_neg, hb]
        rintro rfl
        exact hn hname.spelled
  exact hgen [] rfl

namespace Config.Ready

variable (hc : c.Ready D h)
include hc

/-! ## Signals and frames -/

theorem signal {s : Signal} (hs : s.Placed D c.heap) : (c.signal s).Placed D h :=
  ⟨⟨hc.heap, hc.keeps, hc.stack⟩, hs⟩

theorem give {v : Value} (hv : v.Placed D c.heap) : (c.give v).Placed D h := hc.signal hv

theorem done : c.done.Placed D h := hc.signal trivial

theorem raise (site : Token) (fault : RuntimeFault) : (c.raise site fault).Placed D h :=
  hc.signal trivial

theorem eval {e : Expr} (he : (Part.expr e).Placed D c.heap c.env) :
    Config.Placed D h { c with control := .eval e } :=
  ⟨⟨hc.heap, hc.keeps, hc.stack⟩, he⟩

theorem exec {s : Stmt} (hs : (Part.stmt s).Placed D c.heap c.env) :
    Config.Placed D h { c with control := .exec s } :=
  ⟨⟨hc.heap, hc.keeps, hc.stack⟩, hs⟩

/-- A frame that waits in the current environment. -/
theorem push {f : Frame} (hsaved : f.saved? = none) (hf : f.Placed D c.heap c.env) :
    Ready D h { c with stack := f :: c.stack } := by
  refine ⟨hc.heap, hc.keeps, hc.stack.open, hf, ?_⟩
  rw [hsaved]
  exact hc.stack

theorem evalThen {e : Expr} (he : (Part.expr e).Placed D c.heap c.env) {f : Frame}
    (hsaved : f.saved? = none) (hf : f.Placed D c.heap c.env) : (c.evalThen e f).Placed D h :=
  (hc.push hsaved hf).eval he

theorem execThen {s : Stmt} (hs : (Part.stmt s).Placed D c.heap c.env) {f : Frame}
    (hsaved : f.saved? = none) (hf : f.Placed D c.heap c.env) : (c.execThen s f).Placed D h :=
  (hc.push hsaved hf).exec hs

/-! ## The heap -/

theorem onHeap {α : Type} {f : Heap → α × Heap} (hl : c.heap.Leads D (f c.heap).2) :
    (c.onHeap f).2.Ready D h :=
  ⟨hl.placed, hc.keeps.trans hl.keeps, hc.stack.keep hl.keeps⟩

theorem mapHeap {f : Env → Heap → Heap} (hl : c.heap.Leads D (f c.env c.heap)) :
    (c.mapHeap f).Ready D h :=
  ⟨hl.placed, hc.keeps.trans hl.keeps, hc.stack.keep hl.keeps⟩

/-! ## Names -/

theorem read (id : NodeId) (name : Token) : (c.read d id name).Placed D h := by
  unfold Config.read
  split
  · next v hv =>
    obtain ⟨s, hr⟩ := read_of_lookUp hv
    exact hc.give (hc.heap.scopes hr)
  · exact hc.raise _ _

theorem assign (id : NodeId) {name : Token} (hn : Kind.ofWord name.lexeme = .identifier)
    {v : Value} (hv : v.Placed D c.heap) : (c.assign d id name v).Placed D h := by
  unfold Config.assign
  split
  · next s _ =>
    have hl := hc.heap.write hn hv s
    exact (hc.mapHeap (f := fun _ h => h.write s name.lexeme v) hl).give (hv.keep hl.keeps)
  · exact hc.raise _ _

theorem giveMethod {k : Class} (hk : k.Stands D c.heap) {name : String} {f : Closure}
    (hf : k.method? name = some f) {o : Object} (ho : o.class_.Stands D c.heap) :
    (c.giveMethod f o).Placed D h := by
  obtain ⟨hbind, hcode⟩ := hc.heap.bind hk hf ho
  have hid := hbind.placed.freshId
  exact (hc.onHeap (f := (·.boundMethod f o)) (hbind.trans hid)).give
    (Part.Placed.keep hcode hid.keeps)

theorem superMethod (id : NodeId) (keyword method : Token) :
    (c.superMethod d id keyword method).Placed D h := by
  unfold Config.superMethod
  split
  · exact hc.raise _ _
  · split
    · next parent hparent =>
      split
      · next o ho =>
        split
        · next found hfound =>
          obtain ⟨s, -, hread⟩ := Option.bind_eq_some_iff.1 hparent
          have hk : parent.Stands D c.heap := hc.heap.scopes hread
          have hthis : o.class_.Stands D c.heap := by
            split at ho
            · cases ho
            · obtain ⟨s', -, hread'⟩ := Option.bind_eq_some_iff.1 ho
              exact hc.heap.scopes hread'
          exact hc.giveMethod hk hfound hthis
        · exact hc.raise _ _
      · exact hc.raise _ _
    · exact hc.raise _ _

theorem property (name : Token) {v : Value} (hv : v.Placed D c.heap) :
    (c.property name v).Placed D h := by
  cases v with
  | object o =>
    rw [Config.property]
    split
    · next w hw => exact hc.give (hc.heap.fields hw)
    · split
      · next found hfound => exact hc.giveMethod (k := o.class_) hv hfound hv
      · exact hc.raise _ _
  | _ => exact hc.raise _ _

/-! ## Calls -/

/-- Statements that have a scope of their own inside `outer`. -/
theorem within {outer : Env} {b : Bindings Value} {ss : List Stmt} {leave : Frame} {owner : Part}
    (hb : ∀ n v, b.get? n = some v → v.Placed D c.heap) (hthis : b.get? "this" = none)
    (hsuper : b.get? "super" = none) (howner : owner.Placed D c.heap outer)
    (hparts : ∀ s ∈ ss, .stmt s ∈ owner.parts) (hclass : owner.superclass? = none)
    (hscope : owner.isScope = true) (hsaved : leave.saved? = some c.env)
    (hleave : ∀ h env, leave.Placed D h env) : (c.within outer b ss leave).Placed D h := by
  have hl := hc.heap.newScope hb
  have hplain := c.heap.plain_newScope hthis hsuper
  refine ⟨⟨hl.placed, hc.keeps.trans hl.keeps, hplain, ?_, hplain, hleave _ _, ?_⟩, trivial⟩
  · exact fun s hs => howner.enter (hparts s hs) hclass hscope hl.keeps hplain
  · rw [hsaved]
    exact hc.stack.keep hl.keeps

variable {N : NodeId → NodeId → Prop}

theorem enter {f : Closure} {decl' : FunctionDecl} (hdecl : f.decl.Alike N .spelled decl')
    (hf : f.Placed D c.heap) {arguments : List Value} (ha : ∀ v ∈ arguments, v.Placed D c.heap) :
    (c.enter f arguments).Placed D h := by
  obtain ⟨decl, env, isInitializer⟩ := f
  cases hdecl with
  | @mk name _ params _ body _ _ hparams _ =>
    have howner : (Part.function false ⟨name, params, body⟩).Placed D c.heap env := hf
    refine hc.within ?_ (bindParams_eq_none hparams (by decide) arguments)
      (bindParams_eq_none hparams (by decide) arguments) howner ?_ rfl rfl rfl fun _ _ => trivial
    · intro n v hv
      rcases mem_of_get?_foldl_insert _ _ _ _ _ hv with hmem | hnil
      · exact ha v hmem
      · cases hnil
    · exact fun s hs => List.mem_append_right _ (List.mem_map.2 ⟨s, hs, rfl⟩)

theorem finish (code : Closure) {v : Value} (hv : v.Placed D c.heap) :
    (c.finish code v).Placed D h := by
  unfold Config.finish
  split
  · split
    · next this hthis =>
      obtain ⟨s, -, hread⟩ := Option.bind_eq_some_iff.1 hthis
      exact hc.give (hc.heap.scopes hread)
    · exact hc.raise _ _
  · exact hc.give hv

theorem instantiate {k k' : Class} (hcode : k.Alike N .spelled k') (hk : k.Stands D c.heap)
    {arguments : List Value} (ha : ∀ v ∈ arguments, v.Placed D c.heap) :
    (c.instantiate k arguments).Placed D h := by
  have hnew := hc.heap.newObject k
  have hobject := hc.onHeap (f := (·.newObject k)) hnew
  have ho : (c.heap.newObject k).1.class_.Stands D (c.heap.newObject k).2 := hk.keep hnew.keeps
  have halike := hcode.method? "init"
  unfold Config.instantiate
  dsimp only
  generalize hinit : k.method? "init" = x at halike ⊢
  generalize k'.method? "init" = x' at halike
  cases halike with
  | none => exact hobject.give (v := .object _) ho
  | @some init init' hf =>
    obtain ⟨hbind, hplaced⟩ := hnew.placed.bind ho hinit ho
    have hbound := hobject.onHeap (f := (·.bind init (c.heap.newObject k).1)) hbind
    apply (hbound.push (f := .construct _) rfl (ho.keep hbind.keeps)).enter
      (f := (Heap.bind _ init _).1) hf.decl hplaced
    exact fun v hv => (ha v hv).keep (hnew.trans hbind).keeps

theorem call {callee callee' : Value} (hcode : callee.Alike N .spelled callee')
    (hcallee : callee.Placed D c.heap) (paren : Token) {arguments : List Value}
    (ha : ∀ v ∈ arguments, v.Placed D c.heap) : (c.call callee paren arguments).Placed D h := by
  unfold Config.call
  split
  · exact hc.raise _ _
  · split
    · cases hcode with
      | builtin f =>
        cases f with
        | clock => exact ⟨⟨hc.heap, hc.keeps, hc.stack⟩, trivial⟩
      | function id hf => exact hc.enter hf.decl hcallee ha
      | class_ hk => exact hc.instantiate hk hcallee ha
      | _ => exact hc.raise _ _
    · exact hc.raise _ _

theorem callWith {callee callee' : Value} (hcode : callee.Alike N .spelled callee')
    (hcallee : callee.Placed D c.heap) (paren : Token) {before : List Value}
    (hb : ∀ v ∈ before, v.Placed D c.heap) {after : List Expr}
    (ha : ∀ e ∈ after, (Part.expr e).Placed D c.heap c.env) :
    (c.callWith callee paren before after).Placed D h := by
  cases after with
  | nil => exact hc.call hcode hcallee paren hb
  | cons e after =>
    obtain ⟨he, ha⟩ := List.forall_mem_cons.1 ha
    exact hc.evalThen he rfl ⟨hcallee, hb, ha⟩

/-! ## Statements -/

theorem print (v : Value) : (c.print v).Placed D h := by
  simp only [Config.print, Config.write]
  split
  · next heq =>
    obtain ⟨-, rfl⟩ := Prod.mk.inj heq
    exact ⟨⟨hc.heap, hc.keeps, hc.stack⟩, trivial⟩
  · next heq =>
    obtain ⟨-, rfl⟩ := Prod.mk.inj heq
    exact ⟨⟨hc.heap, hc.keeps, hc.stack⟩, trivial⟩

theorem declareVar {name : Token} (hn : Kind.ofWord name.lexeme = .identifier) {v : Value}
    (hv : v.Placed D c.heap) : (c.declareVar name v).Placed D h :=
  (hc.mapHeap (f := fun env h => h.define env name.lexeme v) (hc.heap.define hn hv c.env)).done

theorem declareFunction {decl : FunctionDecl} (hn : Kind.ofWord decl.name.lexeme = .identifier)
    (hdecl : (Part.function false decl).Placed D c.heap c.env) :
    (c.declareFunction decl).Placed D h :=
  (hc.mapHeap (f := fun env h => h.declareFunction env decl)
    (hc.heap.declareFunction hn hdecl)).done

theorem declareClass {name : Token} (hn : Kind.ofWord name.lexeme = .identifier)
    {parent : Option Class} (hparent : ∀ k ∈ parent, k.Stands D c.heap)
    {methods : List FunctionDecl} (hD : D (c.classOf name parent methods) parent methods) :
    (c.declareClass name parent methods).Placed D h :=
  (hc.mapHeap (f := fun env h => h.declareClass env name.lexeme parent methods)
    (hc.heap.declareClass hc.stack.open hn hparent hD)).done

theorem runAll {ss : List Stmt} (hss : ∀ s ∈ ss, (Part.stmt s).Placed D c.heap c.env) :
    (c.runAll ss).Placed D h := by
  cases ss with
  | nil => exact hc.done
  | cons s rest =>
    obtain ⟨hs, hrest⟩ := List.forall_mem_cons.1 hss
    exact hc.execThen hs rfl hrest

theorem startExpr {e : Expr} (he : (Part.expr e).Placed D c.heap c.env) :
    (c.startExpr d e).Placed D h := by
  have hpart : ∀ {inner}, inner ∈ e.parts → (Part.expr inner).Placed D c.heap c.env :=
    fun hi => he.down (List.mem_map.2 ⟨_, hi, rfl⟩) rfl rfl
  cases e with
  | constant k => exact hc.give (Value.placed_ofConstant k)
  | grouping inner => exact hc.eval (hpart List.mem_cons_self)
  | unary op right => exact hc.evalThen (hpart List.mem_cons_self) rfl trivial
  | binary left op right =>
    exact hc.evalThen (hpart List.mem_cons_self) rfl
      (hpart (List.mem_cons_of_mem _ List.mem_cons_self))
  | logical left op right =>
    exact hc.evalThen (hpart List.mem_cons_self) rfl
      (hpart (List.mem_cons_of_mem _ List.mem_cons_self))
  | var id name => exact hc.read id name
  | assign id name value => exact hc.evalThen (hpart List.mem_cons_self) rfl trivial
  | call callee paren arguments =>
    exact hc.evalThen (hpart List.mem_cons_self) rfl
      fun e he => hpart (List.mem_cons_of_mem _ he)
  | get object name => exact hc.evalThen (hpart List.mem_cons_self) rfl trivial
  | set object name value =>
    exact hc.evalThen (hpart (List.mem_cons_of_mem _ List.mem_cons_self)) rfl
      (hpart List.mem_cons_self)
  | this id keyword => exact hc.read id keyword
  | super id keyword method => exact hc.superMethod id keyword method

/-- A superclass is a name, so it holds nothing. -/
theorem startStmt {s s' : Stmt} (hcode : s.Alike N .spelled s')
    (hs : (Part.stmt s).Placed D c.heap c.env)
    (hD : ∀ {name methods}, s = .classDecl name none methods →
      D (c.classOf name none methods) none methods)
    (hsuper : ∀ {name superclass methods}, s = .classDecl name (some superclass) methods →
      ∃ id x, superclass = .var id x) : (c.startStmt s).Placed D h := by
  cases hcode with
  | expression he => exact hc.evalThen (hs.down List.mem_cons_self rfl rfl) rfl trivial
  | print he => exact hc.evalThen (hs.down List.mem_cons_self rfl rfl) rfl trivial
  | varDecl hname hv =>
    cases hv with
    | none => exact hc.declareVar hname.spelled (v := .nil) trivial
    | some he => exact hc.evalThen (hs.down List.mem_cons_self rfl rfl) rfl trivial
  | block hss =>
    exact hc.within (b := []) nofun rfl rfl hs
      (fun s hmem => List.mem_map.2 ⟨s, hmem, rfl⟩) rfl rfl rfl fun _ _ => trivial
  | ifOnly hcond hthen =>
    -- The branches are held by the frame until the condition has its value.
    refine hc.evalThen (hs.down List.mem_cons_self rfl rfl) rfl
      ⟨hs.down (List.mem_cons_of_mem _ List.mem_cons_self) rfl rfl, ?_⟩
    exact fun s hmem => absurd hmem (Option.not_mem_none s)
  | ifElse hcond hthen helse =>
    refine hc.evalThen (hs.down List.mem_cons_self rfl rfl) rfl
      ⟨hs.down (List.mem_cons_of_mem _ List.mem_cons_self) rfl rfl, ?_⟩
    intro s hmem
    cases hmem
    exact hs.down (List.mem_cons_of_mem _ (List.mem_cons_of_mem _ List.mem_cons_self)) rfl rfl
  | @loop condition _ body _ hcond hbody =>
    have hcondition : (Part.expr condition).Placed D c.heap c.env :=
      hs.down List.mem_cons_self rfl rfl
    exact hc.evalThen hcondition rfl
      ⟨hcondition, hs.down (List.mem_cons_of_mem _ List.mem_cons_self) rfl rfl⟩
  | @funDecl f _ hf =>
    have hdecl : (Part.function false f).Placed D c.heap c.env :=
      hs.down List.mem_cons_self rfl rfl
    cases hf with
    | mk hname hparams hbody => exact hc.declareFunction hname.spelled hdecl
  | ret hk hv =>
    cases hv with
    | none => exact hc.signal (s := .returned .nil) trivial
    | some he => exact hc.evalThen (hs.down List.mem_cons_self rfl rfl) rfl trivial
  | classDecl hname hp hm =>
    cases hp with
    | none =>
      exact hc.declareClass hname.spelled (fun k hk => absurd hk (Option.not_mem_none k)) (hD rfl)
    | some he =>
      -- The class is made later, by the frame that gets the superclass.
      obtain ⟨id, x, rfl⟩ := hsuper rfl
      exact hc.evalThen (.var id x) rfl trivial

/-! ## Going on after a signal -/

theorem giveOr (site : Token) {r : Except RuntimeFault Value}
    (hr : ∀ v, r = .ok v → ∃ k, v = .ofConstant k) : (c.giveOr site r).Placed D h := by
  cases r with
  | ok v =>
    obtain ⟨k, rfl⟩ := hr v rfl
    exact hc.give (Value.placed_ofConstant k)
  | error fault => exact hc.raise site fault

theorem onValue {s : Signal} (hs : s.Placed D c.heap) {go : Config → Value → Config}
    (hgo : ∀ v, s = .value v → v.Placed D c.heap → (go c v).Placed D h) :
    (c.onValue s go).Placed D h := by
  cases s with
  | value v => exact hgo v rfl hs
  | _ => exact hc.signal hs

theorem onDone {s : Signal} (hs : s.Placed D c.heap) {go : Config → Config}
    (hgo : (go c).Placed D h) : (c.onDone s go).Placed D h := by
  cases s with
  | done => exact hgo
  | _ => exact hc.signal hs

/-- Handing a signal to a frame that waits in the current environment. -/
theorem resume {s s' : Signal} (hs : s.Placed D c.heap) (hcode : s.Alike N .spelled s')
    {f f' : Frame} (hsaved : f.saved? = none) (hf : f.Placed D c.heap c.env)
    (hframe : f.Alike N .spelled f')
    (hD : ∀ {name site methods parent}, f = .superclass name site methods →
      s = .value (.class_ parent) →
      D (c.classOf name (some parent) methods) (some parent) methods) :
    (c.resume d s f).Placed D h := by
  unfold Config.resume
  cases hframe with
  | unary hop hk => exact hc.onValue hs fun v _ _ => hc.giveOr _ fun w => constant_of_applyUnary
  | binaryLeft hop hk hr => exact hc.onValue hs fun v _ hv => hc.evalThen hf rfl hv
  | binaryRight hl hop hk =>
    exact hc.onValue hs fun v _ _ => hc.giveOr _ fun w => constant_of_applyBinary
  | logical hop hr =>
    refine hc.onValue hs fun v _ hv => ?_
    split
    · exact hc.give hv
    · exact hc.eval hf
  | assign hid hname => exact hc.onValue hs fun v _ hv => hc.assign _ hname.spelled hv
  | callee hparen ha =>
    refine hc.onValue hs fun v hvalue hv => ?_
    subst hvalue
    cases hcode with
    | value hvcode => exact hc.callWith hvcode hv _ (List.forall_mem_nil _) hf
  | argument hcallee hparen hb ha =>
    refine hc.onValue hs fun v _ hv => hc.callWith hcallee hf.1 _ ?_ hf.2.2
    exact List.forall_mem_append.2 ⟨hf.2.1, List.forall_mem_singleton.2 hv⟩
  | get hname => exact hc.onValue hs fun v _ hv => hc.property _ hv
  | setObject hname he =>
    refine hc.onValue hs fun v _ hv => ?_
    cases v with
    | object o => exact hc.evalThen hf rfl hv
    | _ => exact hc.raise _ _
  | @setValue o o' name name' ho hname =>
    refine hc.onValue hs fun v _ hv => ?_
    have hl := hc.heap.setField hv o name.lexeme
    exact (hc.mapHeap (f := fun _ h => h.setField o name.lexeme v) hl).give (hv.keep hl.keeps)
  | discard => exact hc.onValue hs fun v _ _ => hc.done
  | print => exact hc.onValue hs fun v _ _ => hc.print v
  | define hname => exact hc.onValue hs fun v _ hv => hc.declareVar hname.spelled hv
  | @branch _ _ other _ ht he =>
    refine hc.onValue hs fun v _ _ => ?_
    split
    · exact hc.exec hf.1
    · cases other with
      | none => exact hc.done
      | some s => exact hc.exec (hf.2 s rfl)
  | loopTest hcond hbody =>
    refine hc.onValue hs fun v _ _ => ?_
    split
    · exact hc.execThen hf.2 rfl hf
    · exact hc.done
  | loopBody hcond hbody => exact hc.onDone hs (hc.evalThen hf.1 rfl hf)
  | sequence hss => exact hc.onDone hs (hc.runAll hf)
  | ret => exact hc.onValue hs fun v _ hv => hc.signal (s := .returned v) hv
  | superclass hname hsite hm =>
    refine hc.onValue hs fun v hvalue hv => ?_
    cases v with
    | class_ parent =>
      -- Only here is a class made that has a superclass, which is the value at hand.
      refine hc.declareClass hname.spelled ?_ (hD rfl hvalue)
      intro k hk
      cases hk
      exact hv
    | _ => exact hc.raise _ _
  -- Frames that have saved an environment are excluded.
  | scope saved => cases hsaved
  | call saved hcode => cases hsaved
  | construct ho => exact hc.onValue hs fun v _ _ => hc.give (v := .object _) hf

end Config.Ready

namespace Config

/-- Handing a signal to a frame that restores an environment. -/
theorem Ready.restore {saved : Env} (hc : Ready D h { c with env := saved }) {s : Signal}
    (hs : s.Placed D c.heap) {f : Frame} (hsaved : f.saved? = some saved) :
    (c.resume d s f).Placed D h := by
  unfold Config.resume
  cases f with
  | scope saved' =>
    cases hsaved
    exact hc.signal hs
  | call code saved' =>
    cases hsaved
    cases s with
    | done => exact hc.finish code (v := .nil) trivial
    | returned v => exact hc.finish code hs
    | value v => exact hc.signal hs
    | raised e => exact hc.signal hs
  | _ => cases hsaved

/-- What a step asks for: the names in the code are spelled as their kinds say, the declaration of a
class is taken down, and a superclass is a name. -/
structure Orderly (D : Class → Option Class → List FunctionDecl → Prop) (c : Config) : Prop where
  spelled : ∃ N c', c.Alike N .spelled c'
  declares : ∀ {k parent methods}, c.Declares k parent methods → D k parent methods
  superclass : ∀ {name superclass methods},
    c.control = .exec (.classDecl name (some superclass) methods) → ∃ id x, superclass = .var id x

/-- A step keeps methods with their classes and objects. -/
theorem Placed.step (hc : c.Placed D h) (ho : c.Orderly D) : (step d c).Placed D h := by
  obtain ⟨N, c', hcode⟩ := ho.spelled
  obtain ⟨control, env, stack, world⟩ := c
  obtain ⟨control', env', stack', world'⟩ := c'
  obtain ⟨hready, hcontrol⟩ := hc
  obtain ⟨⟨-, hframes, -⟩, hwork⟩ := hcode
  cases hwork with
  | eval he => exact hready.startExpr hcontrol
  | exec hs =>
    refine hready.startStmt hs hcontrol ?_ ?_
    · rintro name methods rfl
      exact ho.declares (.root rfl)
    · rintro name superclass methods rfl
      exact ho.superclass rfl
  | @signal s s' hs =>
    cases hframes with
    | nil => exact ⟨hready, hcontrol⟩
    | @cons frame _ stack _ hframe _ =>
      obtain ⟨hheap, hkeeps, henv, hplaced, hrest⟩ := hready
      -- A frame either goes on in the environment at hand or restores the one that it has saved.
      cases hsaved : frame.saved? with
      | none =>
        rw [hsaved] at hrest
        have hbelow : Ready D h ⟨.signal s, env, stack, world⟩ := ⟨hheap, hkeeps, hrest⟩
        refine hbelow.resume hcontrol hs hsaved hplaced hframe ?_
        rintro name site methods parent rfl rfl
        exact ho.declares (.heir rfl rfl)
      | some saved =>
        rw [hsaved] at hrest
        have hback : Ready D h ⟨.signal s, saved, stack, world⟩ := ⟨hheap, hkeeps, hrest⟩
        exact Ready.restore (c := ⟨_, env, stack, world⟩) hback hcontrol hsaved

/-- So does every run. -/
theorem Placed.iterate (hc : c.Placed D h) {n : Nat}
    (ho : ∀ m < n, ((Machine.step d)^[m] c).Orderly D) : ((Machine.step d)^[n] c).Placed D h := by
  induction n with
  | zero => exact hc
  | succ n ih =>
    rw [Function.iterate_succ_apply']
    exact (ih fun m hm => ho m (Nat.lt_succ_of_lt hm)).step (ho n (Nat.lt_succ_self n))

/-- From here on the receivers of this moment stay. -/
theorem Placed.rebase (hc : c.Placed D h) : c.Placed D c.heap :=
  ⟨⟨hc.heap, .refl _, hc.stack⟩, hc.control⟩

end Config

end Machine

end Lox
