import Lox.Proofs.Machine.Preservation

/-!
# Where work comes back to, and where it declares names

A frame that enters an environment saves the one before it, so a stack says to which environment
the work comes back in the end, whatever signals travel down on the way. And names are declared in
one place only, the innermost scope of the environment in which a declaration is executed.

Both are put into one invariant. Work is *inside* a number of scopes, `base`, if it comes back to
a given environment, `home`, and everything that it may still declare goes to a scope that was made
after the first `base` ones (`Returns`). A call and a block make a scope and go on in it, so they
are inside all the scopes that were there before.

Main statement: a step stays inside (`Config.Contained.step`), and meanwhile the first `base` scopes
gain and lose no names (`Heap.Shelters`).
-/

namespace Lox

/-! ## Heaps -/

/-- Nothing is lost from one heap to the other, and the first `base` scopes gain no names. -/
structure Heap.Shelters (base : ScopeId) (h h' : Heap) : Prop where
  base_le : base ≤ h.scopes.size
  size_le : h.scopes.size ≤ h'.scopes.size
  keeps : ∀ {s n}, h.binds s n → h'.binds s n
  adds : ∀ {s n}, s < base → h'.binds s n → h.binds s n

namespace Heap

variable {base top : ScopeId} {h h' h'' : Heap}

theorem Shelters.refl (hb : base ≤ h.scopes.size) : h.Shelters base h :=
  ⟨hb, Nat.le_refl _, id, fun _ hbinds => hbinds⟩

theorem Shelters.grows (hs : h.Shelters base h') (hg : h'.Grows top h'') (ht : base ≤ top) :
    h.Shelters base h'' := by
  refine ⟨hs.base_le, Nat.le_trans hs.size_le hg.size_le, fun hb => hg.keeps (hs.keeps hb), ?_⟩
  intro s n hlt hb
  -- The names are added to `top` or to new scopes, and `s` is neither.
  have hsize : s < h'.scopes.size :=
    Nat.lt_of_lt_of_le hlt (Nat.le_trans hs.base_le hs.size_le)
  have hne : s ≠ top := Nat.ne_of_lt (Nat.lt_of_lt_of_le hlt ht)
  exact hs.adds hlt (hg.adds hsize hne hb)

/-- An operation that declares nothing. -/
theorem Shelters.grows_any (hs : h.Shelters base h') (hg : ∀ top, h'.Grows top h'') :
    h.Shelters base h'' :=
  hs.grows (hg base) (Nat.le_refl _)

/-- The first `base` scopes have the same names. -/
theorem Shelters.binds_iff (hs : h.Shelters base h') {s : ScopeId} (hlt : s < base) (n : String) :
    h'.binds s n ↔ h.binds s n :=
  ⟨hs.adds hlt, hs.keeps⟩

variable (h)

theorem grows_define (env : Env) (n : String) (v : Value) :
    h.Grows env.top (h.define env n v) := by
  cases env with
  | nil => exact .of_scopes_eq rfl
  | cons s outer => exact .write_top n v

theorem grows_declareFunction (env : Env) (decl : FunctionDecl) :
    h.Grows env.top (h.declareFunction env decl) := by
  have hfresh : h.Grows env.top h.freshId.2 := .of_scopes_eq rfl
  exact hfresh.trans (grows_define _ env _ _)

/-- A class gets its name, and then the class is put where the name is. -/
theorem grows_declareClass (env : Env) (name : String) (parent : Option Class)
    (methods : List FunctionDecl) :
    h.Grows env.top (h.declareClass env name parent methods) := by
  have hclass := (h.grows_define env name .nil).trans
    (grows_newClass (h.define env name .nil) env name parent methods env.top)
  unfold declareClass
  dsimp only
  split
  · next s hs =>
    have hb : ((h.define env name .nil).newClass env name parent methods).2.binds s name :=
      List.find?_some (p := (binds _ · name)) hs
    exact hclass.trans (.write_bound hb _)
  · exact hclass

theorem grows_boundMethod (method : Closure) (o : Object) :
    h.Grows top (h.boundMethod method o).2 := by
  have hbind : h.Grows top (h.bind method o).2 := .newScope _
  exact hbind.trans (.of_scopes_eq rfl)

end Heap

namespace Machine

/-! ## Stacks -/

/-- The environment that a frame restores, if it entered another one. -/
def Frame.saved? : Frame → Option Env
  | .scope saved | .call _ saved => some saved
  | _ => none

/-- The names that a frame may still declare in the environment in which it is resumed. -/
def Frame.declared : Frame → List Token
  | .define name | .superclass name _ _ => [name]
  | .branch thenBranch elseBranch =>
    thenBranch.declared ++ (elseBranch.map Stmt.declared).getD []
  | .loopTest _ body | .loopBody _ body => body.declared
  | .sequence statements => statements.flatMap Stmt.declared
  | _ => []

/-- The names that the work at hand may declare in the current environment. -/
def Control.declared : Control → List Token
  | .exec s => s.declared
  | .eval _ | .signal _ => []

/-- A stack comes back to `home`, and declares names only in scopes from `base` on. -/
def Returns (base : ScopeId) (home env : Env) : List Frame → Prop
  | [] => env = home
  | f :: rest => (f.declared ≠ [] → base ≤ env.top) ∧ Returns base home (f.saved?.getD env) rest

variable {h : Heap} {base : ScopeId} {home : Env} {c : Config} {d : Scoping.Distances}

namespace Config

variable (h base home) in
/-- The stack comes back to `home`, and the first `base` scopes have the names that they had in
the heap `h`. -/
structure Inside (c : Config) : Prop where
  heap : h.Shelters base c.heap
  stack : Returns base home c.env c.stack

variable (h base home) in
/-- The same, and the work at hand declares names only in scopes from `base` on. -/
structure Contained (c : Config) : Prop extends Inside h base home c where
  control : c.control.declared ≠ [] → base ≤ c.env.top

namespace Inside

variable (hc : c.Inside h base home)
include hc

theorem base_le : base ≤ c.heap.scopes.size := Nat.le_trans hc.heap.base_le hc.heap.size_le

/-! ## Signals and frames -/

theorem signal (s : Signal) : (c.signal s).Contained h base home :=
  ⟨⟨hc.heap, hc.stack⟩, fun hne => absurd rfl hne⟩

theorem give (v : Value) : (c.give v).Contained h base home := hc.signal _

theorem done : c.done.Contained h base home := hc.signal _

theorem raise (site : Token) (fault : RuntimeFault) :
    (c.raise site fault).Contained h base home :=
  hc.signal _

theorem giveOr (site : Token) (r : Except RuntimeFault Value) :
    (c.giveOr site r).Contained h base home := by
  cases r with
  | ok v => exact hc.give v
  | error fault => exact hc.raise site fault

theorem eval (e : Expr) : Contained h base home { c with control := .eval e } :=
  ⟨⟨hc.heap, hc.stack⟩, fun hne => absurd rfl hne⟩

theorem exec {s : Stmt} (hs : s.declared ≠ [] → base ≤ c.env.top) :
    Contained h base home { c with control := .exec s } :=
  ⟨⟨hc.heap, hc.stack⟩, hs⟩

/-- A frame that waits in the current environment. -/
theorem push {f : Frame} (hsaved : f.saved? = none) (hf : f.declared ≠ [] → base ≤ c.env.top) :
    Inside h base home { c with stack := f :: c.stack } := by
  refine ⟨hc.heap, hf, ?_⟩
  rw [hsaved]
  exact hc.stack

/-- An expression, and then a frame that may declare something. -/
theorem evalThen (e : Expr) {f : Frame} (hsaved : f.saved? = none)
    (hf : f.declared ≠ [] → base ≤ c.env.top) : (c.evalThen e f).Contained h base home :=
  (hc.push hsaved hf).eval e

/-- An expression, and then a frame that declares nothing. -/
theorem evalPlain (e : Expr) {f : Frame} (hsaved : f.saved? = none) (hf : f.declared = []) :
    (c.evalThen e f).Contained h base home :=
  hc.evalThen e hsaved fun hne => absurd hf hne

theorem execThen {s : Stmt} {f : Frame} (hs : s.declared ≠ [] → base ≤ c.env.top)
    (hsaved : f.saved? = none) (hf : f.declared ≠ [] → base ≤ c.env.top) :
    (c.execThen s f).Contained h base home :=
  (hc.push hsaved hf).exec hs

/-! ## The heap -/

theorem onHeap {α : Type} {f : Heap → α × Heap} (hg : ∀ top, c.heap.Grows top (f c.heap).2) :
    (c.onHeap f).2.Inside h base home :=
  ⟨hc.heap.grows_any hg, hc.stack⟩

theorem mapHeap {f : Env → Heap → Heap} (hg : ∀ top, c.heap.Grows top (f c.env c.heap)) :
    (c.mapHeap f).Inside h base home :=
  ⟨hc.heap.grows_any hg, hc.stack⟩

/-- A declaration in the innermost scope. -/
theorem declare {f : Env → Heap → Heap} (hg : c.heap.Grows c.env.top (f c.env c.heap))
    (ht : base ≤ c.env.top) : (c.mapHeap f).Inside h base home :=
  ⟨hc.heap.grows hg ht, hc.stack⟩

/-! ## Names -/

theorem read (id : NodeId) (name : Token) : (c.read d id name).Contained h base home := by
  unfold Config.read
  split
  · exact hc.give _
  · exact hc.raise _ _

theorem assign (id : NodeId) (name : Token) (v : Value) :
    (c.assign d id name v).Contained h base home := by
  unfold Config.assign
  split
  · next s hs =>
    have hg : ∀ top, c.heap.Grows top (c.heap.write s name.lexeme v) := by
      intro top
      exact .write_bound (binds_of_targetOf hs) v
    exact (hc.mapHeap (f := fun _ h => h.write s name.lexeme v) hg).give v
  · exact hc.raise _ _

theorem giveMethod (method : Closure) (o : Object) :
    (c.giveMethod method o).Contained h base home :=
  (hc.onHeap (f := (·.boundMethod method o)) fun _ => c.heap.grows_boundMethod method o).give _

theorem superMethod (id : NodeId) (keyword method : Token) :
    (c.superMethod d id keyword method).Contained h base home := by
  unfold Config.superMethod
  split
  · exact hc.raise _ _
  · split
    · split
      · split
        · exact hc.giveMethod _ _
        · exact hc.raise _ _
      · exact hc.raise _ _
    · exact hc.raise _ _

theorem property (name : Token) (v : Value) : (c.property name v).Contained h base home := by
  cases v with
  | object o =>
    rw [Config.property]
    split
    · exact hc.give _
    · split
      · exact hc.giveMethod _ o
      · exact hc.raise _ _
  | _ => exact hc.raise _ _

/-! ## Calls -/

/-- The new scope comes after the first `base` ones, and the frame that leaves it restores the
current environment. -/
theorem within (outer : Env) (b : Bindings Value) (ss : List Stmt) {leave : Frame}
    (hsaved : leave.saved? = some c.env) (hleave : leave.declared = []) :
    (c.within outer b ss leave).Contained h base home := by
  have hg : ∀ top, c.heap.Grows top (c.heap.nest outer b).2 := fun _ => .newScope b
  refine ⟨⟨hc.heap.grows_any hg, fun _ => hc.base_le, fun hne => absurd hleave hne, ?_⟩,
    fun hne => absurd rfl hne⟩
  rw [hsaved]
  exact hc.stack

theorem enter (code : Closure) (arguments : List Value) :
    (c.enter code arguments).Contained h base home :=
  hc.within _ _ _ rfl rfl

theorem finish (code : Closure) (v : Value) : (c.finish code v).Contained h base home := by
  unfold Config.finish
  split
  · split
    · exact hc.give _
    · exact hc.raise _ _
  · exact hc.give v

theorem instantiate (k : Class) (arguments : List Value) :
    (c.instantiate k arguments).Contained h base home := by
  have hobject := hc.onHeap (f := (·.newObject k)) fun _ => .of_scopes_eq rfl
  unfold Config.instantiate
  dsimp only
  split
  · exact hobject.give _
  · next init _ =>
    have hbound := hobject.onHeap (f := (·.bind init (c.heap.newObject k).1)) fun _ => .newScope _
    exact (hbound.push (f := .construct _) rfl fun hne => absurd rfl hne).enter _ arguments

theorem call (callee : Value) (paren : Token) (arguments : List Value) :
    (c.call callee paren arguments).Contained h base home := by
  unfold Config.call
  split
  · exact hc.raise _ _
  · split
    · cases callee with
      | builtin f =>
        cases f with
        | clock => exact ⟨⟨hc.heap, hc.stack⟩, fun hne => absurd rfl hne⟩
      | function id code => exact hc.enter code arguments
      | class_ k => exact hc.instantiate k arguments
      | _ => exact hc.raise _ _
    · exact hc.raise _ _

theorem callWith (callee : Value) (paren : Token) (before : List Value) (after : List Expr) :
    (c.callWith callee paren before after).Contained h base home := by
  cases after with
  | nil => exact hc.call callee paren before
  | cons e after => exact hc.evalPlain e rfl rfl

/-! ## Statements -/

theorem print (v : Value) : (c.print v).Contained h base home := by
  simp only [Config.print, Config.write]
  split
  · next heq =>
    obtain ⟨-, rfl⟩ := Prod.mk.inj heq
    exact ⟨⟨hc.heap, hc.stack⟩, fun hne => absurd rfl hne⟩
  · next heq =>
    obtain ⟨-, rfl⟩ := Prod.mk.inj heq
    exact ⟨⟨hc.heap, hc.stack⟩, fun hne => absurd rfl hne⟩

theorem declareVar (name : Token) (v : Value) (ht : base ≤ c.env.top) :
    (c.declareVar name v).Contained h base home :=
  (hc.declare (f := fun env h => h.define env name.lexeme v)
    (c.heap.grows_define c.env name.lexeme v) ht).done

theorem declareClass (name : Token) (parent : Option Class) (methods : List FunctionDecl)
    (ht : base ≤ c.env.top) : (c.declareClass name parent methods).Contained h base home :=
  (hc.declare (f := fun env h => h.declareClass env name.lexeme parent methods)
    (c.heap.grows_declareClass c.env name.lexeme parent methods) ht).done

theorem runAll {ss : List Stmt} (hss : ss.flatMap Stmt.declared ≠ [] → base ≤ c.env.top) :
    (c.runAll ss).Contained h base home := by
  cases ss with
  | nil => exact hc.done
  | cons s rest =>
    rw [List.flatMap_cons] at hss
    apply hc.execThen
    · intro hs
      apply hss
      simp [hs]
    · rfl
    · intro hrest
      apply hss
      rw [Frame.declared] at hrest
      simp [hrest]

theorem startExpr (e : Expr) : (c.startExpr d e).Contained h base home := by
  cases e with
  | constant k => exact hc.give _
  | grouping inner => exact hc.eval inner
  | var id name => exact hc.read id name
  | this id keyword => exact hc.read id keyword
  | super id keyword method => exact hc.superMethod id keyword method
  | _ => exact hc.evalPlain _ rfl rfl

theorem startStmt {s : Stmt} (hs : s.declared ≠ [] → base ≤ c.env.top) :
    (c.startStmt s).Contained h base home := by
  cases s with
  | expression e => exact hc.evalPlain e rfl rfl
  | print e => exact hc.evalPlain e rfl rfl
  | varDecl name value =>
    -- A declaration may be made here, so the innermost scope is none of the first `base`.
    have ht : base ≤ c.env.top := hs (List.cons_ne_nil _ _)
    cases value with
    | none => exact hc.declareVar name .nil ht
    | some e => exact hc.evalThen e rfl fun _ => ht
  -- The block declares nothing here; what is inside goes to its own scope.
  | block ss => exact hc.within c.env [] ss rfl rfl
  | branch condition thenBranch elseBranch =>
    apply hc.evalThen condition rfl
    intro hne
    apply hs
    cases elseBranch with
    | none => simpa [Frame.declared, Stmt.declared] using hne
    | some other => simpa [Frame.declared, Stmt.declared] using hne
  | loop condition body => exact hc.evalThen condition rfl hs
  | funDecl f =>
    have ht : base ≤ c.env.top := hs (List.cons_ne_nil _ _)
    exact (hc.declare (f := fun env h => h.declareFunction env f)
      (c.heap.grows_declareFunction c.env f) ht).done
  | ret keyword value =>
    cases value with
    | none => exact hc.signal _
    | some e => exact hc.evalPlain e rfl rfl
  | classDecl name superclass methods =>
    have ht : base ≤ c.env.top := hs (List.cons_ne_nil _ _)
    cases superclass with
    | none => exact hc.declareClass name none methods ht
    | some e => exact hc.evalThen e rfl fun _ => ht

/-! ## Going on after a signal -/

theorem onValue (s : Signal) {go : Config → Value → Config}
    (hgo : ∀ v, (go c v).Contained h base home) : (c.onValue s go).Contained h base home := by
  cases s with
  | value v => exact hgo v
  | _ => exact hc.signal _

theorem onDone (s : Signal) {go : Config → Config} (hgo : (go c).Contained h base home) :
    (c.onDone s go).Contained h base home := by
  cases s with
  | done => exact hgo
  | _ => exact hc.signal _

end Inside

/-- Handing a signal to a frame that waits in the current environment. -/
theorem Inside.resume (hc : c.Inside h base home) (s : Signal) {f : Frame}
    (hsaved : f.saved? = none) (hf : f.declared ≠ [] → base ≤ c.env.top) :
    (c.resume d s f).Contained h base home := by
  unfold Config.resume
  cases f with
  | unary op => exact hc.onValue s fun v => hc.giveOr _ _
  | binaryLeft op right => exact hc.onValue s fun v => hc.evalPlain right rfl rfl
  | binaryRight left op => exact hc.onValue s fun v => hc.giveOr _ _
  | logical op right =>
    apply hc.onValue s
    intro v
    split
    · exact hc.give v
    · exact hc.eval right
  | assign id name => exact hc.onValue s fun v => hc.assign id name v
  | callee paren arguments => exact hc.onValue s fun v => hc.callWith v paren [] arguments
  | argument callee paren before after =>
    exact hc.onValue s fun v => hc.callWith callee paren _ after
  | get name => exact hc.onValue s fun v => hc.property name v
  | setObject name value =>
    apply hc.onValue s
    intro v
    cases v with
    | object o => exact hc.evalPlain value rfl rfl
    | _ => exact hc.raise _ _
  | setValue o name =>
    apply hc.onValue s
    intro v
    have hset := hc.mapHeap (f := fun _ h => h.setField o name.lexeme v) fun _ => .of_scopes_eq rfl
    exact hset.give v
  | discard => exact hc.onValue s fun v => hc.done
  | print => exact hc.onValue s fun v => hc.print v
  | define name => exact hc.onValue s fun v => hc.declareVar name v (hf (List.cons_ne_nil _ _))
  | branch thenBranch elseBranch =>
    apply hc.onValue s
    intro v
    -- What the frame may declare is what the two branches declare.
    rw [Frame.declared] at hf
    split
    · apply hc.exec
      intro hne
      apply hf
      simp [hne]
    · cases elseBranch with
      | none => exact hc.done
      | some other =>
        apply hc.exec
        intro hne
        apply hf
        simp [hne]
  | loopTest condition body =>
    apply hc.onValue s
    intro v
    split
    · exact hc.execThen hf rfl hf
    · exact hc.done
  | loopBody condition body => exact hc.onDone s (hc.evalThen condition rfl hf)
  | sequence ss => exact hc.onDone s (hc.runAll hf)
  | ret => exact hc.onValue s fun v => hc.signal _
  | superclass name site methods =>
    apply hc.onValue s
    intro v
    cases v with
    | class_ parent => exact hc.declareClass name _ methods (hf (List.cons_ne_nil _ _))
    | _ => exact hc.raise _ _
  -- Frames that have saved an environment are excluded.
  | scope saved => cases hsaved
  | call code saved => cases hsaved
  | construct o => exact hc.onValue s fun v => hc.give _

/-- Handing a signal to a frame that restores an environment: each signal takes this way. -/
theorem Inside.restore {saved : Env} (hc : Inside h base home { c with env := saved }) (s : Signal)
    {f : Frame} (hsaved : f.saved? = some saved) : (c.resume d s f).Contained h base home := by
  unfold Config.resume
  cases f with
  | scope saved' =>
    cases hsaved
    exact hc.signal s
  | call code saved' =>
    cases hsaved
    cases s with
    | done => exact hc.finish code _
    | returned v => exact hc.finish code v
    | value v => exact hc.signal _
    | raised e => exact hc.signal _
  | _ => cases hsaved

/-- A step stays inside. -/
theorem Contained.step (hc : c.Contained h base home) : (step d c).Contained h base home := by
  obtain ⟨control, env, stack, world⟩ := c
  cases control with
  | eval e => exact hc.startExpr e
  | exec s => exact hc.startStmt hc.control
  | signal s =>
    cases stack with
    | nil => exact hc
    | cons f stack =>
      obtain ⟨⟨hheap, hf, hrest⟩, -⟩ := hc
      -- Only a frame that entered an environment changes it, and it does so on every signal.
      cases hsaved : f.saved? with
      | none =>
        rw [hsaved] at hrest
        exact Inside.resume (c := ⟨_, env, stack, world⟩) ⟨hheap, hrest⟩ s hsaved hf
      | some saved =>
        rw [hsaved] at hrest
        exact Inside.restore (c := ⟨_, env, stack, world⟩) ⟨hheap, hrest⟩ s hsaved

/-- So does every run. -/
theorem Contained.iterate (hc : c.Contained h base home) (n : Nat) :
    ((Machine.step d)^[n] c).Contained h base home := by
  induction n generalizing c with
  | zero => exact hc
  | succ n ih => exact ih hc.step

/-- When a run has ended, the environment is the one to which it was to come back. -/
theorem Contained.ended (hc : c.Contained h base home) {s : Signal} (hres : c.result? = some s) :
    c.env = home := by
  have hstack := hc.stack
  rw [(result?_eq_some.1 hres).2] at hstack
  exact hstack

end Config

end Machine

end Lox
