import Lox.Proofs.Heap.Fits
import Lox.Proofs.Lexical.Interpreter
import Lox.Proofs.Scoping.Keywords
import Lox.Proofs.Tree.Alike
import Mathlib.Data.List.Forall2

/-!
# Cells and scopes

The machine keeps a variable in a scope under its name, the lexical interpreter keeps it in a cell.
A *link* says which cell belongs to which variable (`Link`). While a program runs, links only grow:
a declaration adds one for the innermost scope, and no other scope that is there already ever gets
a new one (`Link.Grows`). This is what makes names once captured mean the same for ever.

Names and an environment show the same variables (`Link.Sees`) if the two lead to the same cell for
every name, as the check of scopes resolves it. Values match (`Matches`) if they differ only in
what their functions keep, and there one shows the same as the other.
-/

namespace Lox.Lexical

open Scoping Machine

/-- The cells of the variables in scopes, and the number of scopes. -/
structure Link where
  cell : ScopeId → String → Option Location
  size : Nat

namespace Link

/-- One more scope, with no variable in it. -/
def push (m : Link) : Link := { m with size := m.size + 1 }

/-- One more variable. -/
def bind (m : Link) (s : ScopeId) (x : String) (l : Location) : Link :=
  { m with cell := fun s' x' => if s' = s ∧ x' = x then some l else m.cell s' x' }

theorem cell_bind_self (m : Link) (s : ScopeId) (x : String) (l : Location) :
    (m.bind s x l).cell s x = some l :=
  if_pos ⟨rfl, rfl⟩

theorem cell_bind_of_ne (m : Link) {s s' : ScopeId} {x x' : String} (l : Location)
    (h : ¬(s' = s ∧ x' = x)) : (m.bind s x l).cell s' x' = m.cell s' x' :=
  if_neg h

/-- Nothing is lost from one link to the other, and of the scopes of the first only `top` may get
new variables. -/
structure Grows (top : Option ScopeId) (m m' : Link) : Prop where
  size_le : m.size ≤ m'.size
  keeps : ∀ {s x l}, m.cell s x = some l → m'.cell s x = some l
  adds : ∀ {s}, s < m.size → some s ≠ top → ∀ x, m'.cell s x = m.cell s x

namespace Grows

variable {top : Option ScopeId} {m m' m'' : Link}

theorem refl (m : Link) : Grows top m m := ⟨Nat.le_refl _, id, fun _ _ _ => rfl⟩

theorem trans (h : Grows top m m') (h' : Grows top m' m'') : Grows top m m'' where
  size_le := Nat.le_trans h.size_le h'.size_le
  keeps hc := h'.keeps (h.keeps hc)
  adds hs ht x := (h'.adds (Nat.lt_of_lt_of_le hs h.size_le) ht x).trans (h.adds hs ht x)

theorem weaken (h : Grows none m m') : Grows top m m' :=
  ⟨h.size_le, h.keeps, fun hs _ x => h.adds hs (Option.some_ne_none _) x⟩

theorem push (m : Link) : Grows none m m.push :=
  ⟨Nat.le_succ _, id, fun _ _ _ => rfl⟩

theorem bind {s : ScopeId} {x : String} (hnone : m.cell s x = none) (l : Location) :
    Grows (some s) m (m.bind s x l) where
  size_le := Nat.le_refl _
  keeps := by
    intro s' x' l' hc
    rw [m.cell_bind_of_ne l]
    · exact hc
    · intro h
      obtain ⟨rfl, rfl⟩ := h
      rw [hnone] at hc
      cases hc
  adds := by
    intro s' _ hs' x'
    refine m.cell_bind_of_ne l fun h => hs' ?_
    rw [h.1]

/-- Work in a scope that was new at its beginning leaves all earlier scopes alone. -/
theorem leave (h : Grows (some m.size) m.push m') : Grows none m m' where
  size_le := Nat.le_trans (Nat.le_succ _) h.size_le
  keeps hc := h.keeps hc
  adds hs _ x := by
    refine h.adds (Nat.lt_succ_of_lt hs) (fun heq => ?_) x
    exact absurd (Option.some.inj heq) (Nat.ne_of_lt hs)

end Grows

end Link

/-! ## Visible names -/

/-- The innermost scope has the name, and the name is not ready. -/
def Pending (ctx : Context) (x : String) : Prop :=
  ctx.scopes.head?.bind (·.lookup x) = some false

/-- Names and an environment lead to the same cells at a place with the given context. -/
structure Link.Sees (m : Link) (ctx : Context) (names : Names) (env : Env) : Prop where
  outermost : ctx.scopes = [] → env = globalEnv
  inner : ctx.scopes ≠ [] → globalScope < env.top ∧ env.top < m.size
  bound : ∀ {x d}, ctx.hops? x = some d → ¬Pending ctx x →
    ∃ s l, env[d]? = some s ∧ m.cell s x = some l ∧ names.lookup x = some l
  free : ∀ {x}, ctx.hops? x = none → names.lookup x = none

/-- The innermost scope has no variable but those that its context has. -/
def Link.Tight (m : Link) (ctx : Context) (env : Env) : Prop :=
  ∀ x, ctx.scopes.head?.bind (·.lookup x) = none → m.cell env.top x = none

theorem not_pending_of_settled {ctx : Context} (hs : Settled ctx.scopes) (x : String) :
    ¬Pending ctx x :=
  hs.head? x

theorem hops?_add_self {ctx : Context} (hne : ctx.scopes ≠ []) (x : String) (ready : Bool) :
    (ctx.add x ready).hops? x = some 0 := by
  obtain ⟨scope, outer, hs⟩ := List.exists_cons_of_ne_nil hne
  rw [Context.hops?, Context.add_scopes_cons hs, List.findIdx?_cons, List.lookup_cons_self]
  rfl

theorem scopes_add_ne_nil {ctx : Context} {x : String} {ready : Bool} :
    (ctx.add x ready).scopes ≠ [] ↔ ctx.scopes ≠ [] := by
  cases hs : ctx.scopes with
  | nil => simp [Context.add_scopes_nil hs]
  | cons scope outer => simp [Context.add_scopes_cons hs]

/-- What the innermost scope says after a name has been added to it. -/
theorem head?_add_of_ne (ctx : Context) {x x' : String} (h : x' ≠ x) (ready : Bool) :
    (ctx.add x ready).scopes.head?.bind (·.lookup x') =
      ctx.scopes.head?.bind (·.lookup x') := by
  cases hs : ctx.scopes with
  | nil => rw [Context.add_scopes_nil hs]
  | cons scope outer =>
    rw [Context.add_scopes_cons hs]
    simp [List.lookup_cons, beq_false_of_ne h]

namespace Link

variable {m m' : Link} {ctx : Context} {names : Names} {env : Env} {top : Option ScopeId}

theorem Sees.grows (h : m.Sees ctx names env) (hg : Grows top m m') : m'.Sees ctx names env where
  outermost := h.outermost
  inner hne := ⟨(h.inner hne).1, Nat.lt_of_lt_of_le (h.inner hne).2 hg.size_le⟩
  bound hd hp := by
    obtain ⟨s, l, hs, hc, hl⟩ := h.bound hd hp
    exact ⟨s, l, hs, hg.keeps hc, hl⟩
  free := h.free

/-- A name that is declared and not ready changes nothing for the others. -/
theorem Sees.declare (h : m.Sees ctx names env) (name : Token) :
    m.Sees (ctx.declare name) names env where
  outermost hs := by
    refine h.outermost ?_
    by_contra hne
    exact scopes_add_ne_nil.2 hne hs
  inner hne := h.inner (scopes_add_ne_nil.1 hne)
  bound := by
    intro x d hd hp
    by_cases hx : x = name.lexeme
    · subst hx
      by_cases hne : ctx.scopes = []
      -- On the outermost level no distance is found for any name.
      · rw [Context.declare, Context.hops?, Context.add_scopes_nil hne] at hd
        cases hd
      · obtain ⟨scope, outer, hs⟩ := List.exists_cons_of_ne_nil hne
        -- In a scope the name itself is pending, and nothing is asked of such a name.
        refine absurd ?_ hp
        rw [Pending, Context.declare, Context.add_scopes_cons hs]
        simp
    · rw [Context.declare, Context.hops?_add_of_ne hx] at hd
      refine h.bound hd ?_
      rwa [Pending, Context.declare, head?_add_of_ne ctx hx] at hp
  free := by
    intro x hx
    by_cases hne : ctx.scopes = []
    · refine h.free ?_
      rw [Context.hops?, hne]
      rfl
    · by_cases hn : x = name.lexeme
      · subst hn
        rw [Context.declare, hops?_add_self hne] at hx
        cases hx
      · rw [Context.declare, Context.hops?_add_of_ne hn] at hx
        exact h.free hx

/-- A global name is not kept. -/
theorem Sees.define_global (h : m.Sees ctx names env) (hs : ctx.scopes = []) (x : String) :
    m.Sees (ctx.add x true) names env := by
  have heq : (ctx.add x true).scopes = ctx.scopes := by rw [Context.add_scopes_nil hs, hs]
  refine ⟨fun _ => h.outermost hs, fun hne => absurd (heq.trans hs) hne, ?_, ?_⟩
  · intro x' d hd
    rw [Context.hops?, heq, hs] at hd
    cases hd
  · intro x' hx'
    refine h.free ?_
    rwa [Context.hops?, heq] at hx'

/-- A local name gets a cell. -/
theorem Sees.define (h : m.Sees ctx names env) (hne : ctx.scopes ≠ []) {x : String}
    (hnone : m.cell env.top x = none) (l : Location) :
    (m.bind env.top x l).Sees (ctx.add x true) ((x, l) :: names) env where
  outermost hs := absurd hs (scopes_add_ne_nil.2 hne)
  inner _ := h.inner hne
  bound := by
    intro x' d hd hp
    by_cases hx : x' = x
    · subst hx
      rw [hops?_add_self hne] at hd
      cases hd
      have hpos := (h.inner hne).1
      -- The name itself is now in the innermost scope, at no distance.
      refine ⟨env.top, l, ?_, m.cell_bind_self _ _ l, List.lookup_cons_self⟩
      cases env with
      | nil => exact absurd hpos (Nat.lt_irrefl _)
      | cons s outer => rfl
    · rw [Context.hops?_add_of_ne hx] at hd
      rw [Pending, head?_add_of_ne ctx hx] at hp
      obtain ⟨s, l', hs, hc, hl⟩ := h.bound hd hp
      refine ⟨s, l', hs, (Grows.bind hnone l).keeps hc, ?_⟩
      rwa [List.lookup_cons, beq_false_of_ne hx]
  free := by
    intro x' hx'
    by_cases hx : x' = x
    · subst hx
      rw [hops?_add_self hne] at hx'
      cases hx'
    · rw [Context.hops?_add_of_ne hx] at hx'
      rw [List.lookup_cons, beq_false_of_ne hx]
      exact h.free hx'

/-- A new scope shows what is around it. -/
theorem Sees.enter (h : m.Sees ctx names env) (hs : Settled ctx.scopes) (hpos : 0 < m.size) :
    m.push.Sees ctx.enter names (m.size :: env) where
  outermost hnil := by cases hnil
  inner _ := ⟨hpos, Nat.lt_succ_self _⟩
  bound := by
    intro x d hd _
    rw [Context.hops?_enter] at hd
    -- The new scope is empty, so every name is one step further out, and none is pending.
    obtain ⟨d', hd', rfl⟩ := Option.map_eq_some_iff.1 hd
    exact h.bound hd' (not_pending_of_settled hs x)
  free := by
    intro x hx
    rw [Context.hops?_enter] at hx
    exact h.free (Option.map_eq_none_iff.1 hx)

theorem Tight.grows (h : m.Tight ctx env) (hg : Grows top m m') (hlt : env.top < m.size)
    (ht : some env.top ≠ top) : m'.Tight ctx env := by
  intro x hx
  rw [hg.adds hlt ht]
  exact h x hx

theorem Tight.define (h : m.Tight ctx env) (hne : ctx.scopes ≠ []) (x : String) (l : Location) :
    (m.bind env.top x l).Tight (ctx.add x true) env := by
  intro x' hx'
  by_cases hx : x' = x
  -- The new name is one that the context has.
  · subst hx
    obtain ⟨scope, outer, hs⟩ := List.exists_cons_of_ne_nil hne
    rw [Context.add_scopes_cons hs] at hx'
    simp at hx'
  · rw [head?_add_of_ne ctx hx] at hx'
    rw [m.cell_bind_of_ne l fun hboth => hx hboth.2]
    exact h x' hx'

end Link

/-! ## Values -/

section

variable (V : Visit → Prop) (m : Link)

/-- The context of a method inside the scope of `this`. -/
def withThis (ctx : Context) : Context := ctx.enter.add "this" true

/-- Two functions with one declaration, which keep the same variables. The declaration fits the
context around it, where an initializer finds `this` in the innermost scope. -/
structure SameCode (around : Context → Context) (f : Closure Names) (f' : Closure) : Prop where
  decl : f.decl = f'.decl
  isInitializer : f.isInitializer = f'.isInitializer
  place : ∃ (ctx : Context) (kind : FunctionContext),
    Settled ctx.scopes ∧ m.Sees ctx f.env f'.env ∧ f'.decl.Fits V (around ctx) kind ∧
      (f'.isInitializer = true → (around ctx).hops? "this" = some 0)

/-- Two class declarations with the same methods. -/
structure SameLayer (k : ClassLayer Names) (k' : ClassLayer) : Prop where
  id : k.id = k'.id
  name : k.name = k'.name
  methods : ∀ x, Option.Rel (SameCode V m withThis) (k.methods.get? x) (k'.methods.get? x)

/-- Two classes with the same layers. -/
def SameClass (k : Class Names) (k' : Class) : Prop :=
  List.Forall₂ (SameLayer V m) k.lineage k'.lineage

/-- Two values that differ only in what their functions keep. -/
inductive Matches : Value Names → Value → Prop
  | nil : Matches .nil .nil
  | bool (b : Bool) : Matches (.bool b) (.bool b)
  | number (x : Float) : Matches (.number x) (.number x)
  | text (t : String) : Matches (.text t) (.text t)
  | builtin (f : Builtin) : Matches (.builtin f) (.builtin f)
  | function (id : Nat) {f : Closure Names} {f' : Closure} :
      SameCode V m (fun ctx => ctx) f f' → Matches (.function id f) (.function id f')
  | class_ {k : Class Names} {k' : Class} :
      SameClass V m k k' → Matches (.class_ k) (.class_ k')
  | object (id : Nat) {k : Class Names} {k' : Class} :
      SameClass V m k k' → Matches (.object ⟨id, k⟩) (.object ⟨id, k'⟩)

/-- Two results of an operator. -/
inductive SameResult : Except RuntimeFault (Value Names) → Except RuntimeFault Value → Prop
  | ok {v : Value Names} {v' : Value} : Matches V m v v' → SameResult (.ok v) (.ok v')
  | error (fault : RuntimeFault) : SameResult (.error fault) (.error fault)

end

section

variable {V : Visit → Prop} {m m' : Link} {top : Option ScopeId}

theorem SameCode.grows {around : Context → Context} {f : Closure Names} {f' : Closure}
    (h : SameCode V m around f f') (hg : m.Grows top m') : SameCode V m' around f f' := by
  obtain ⟨ctx, kind, hs, hsees, hfit, hthis⟩ := h.place
  exact ⟨h.decl, h.isInitializer, ctx, kind, hs, hsees.grows hg, hfit, hthis⟩

theorem SameLayer.grows {k : ClassLayer Names} {k' : ClassLayer} (h : SameLayer V m k k')
    (hg : m.Grows top m') : SameLayer V m' k k' :=
  ⟨h.id, h.name, fun x => (h.methods x).mono fun _ _ hf => hf.grows hg⟩

theorem SameClass.grows {k : Class Names} {k' : Class} (h : SameClass V m k k')
    (hg : m.Grows top m') : SameClass V m' k k' :=
  List.Forall₂.imp (fun _ _ hl => hl.grows hg) h

theorem Matches.grows {v : Value Names} {v' : Value} (h : Matches V m v v')
    (hg : m.Grows top m') : Matches V m' v v' := by
  cases h with
  | nil => exact .nil
  | bool b => exact .bool b
  | number x => exact .number x
  | text t => exact .text t
  | builtin f => exact .builtin f
  | function id hf => exact .function id (hf.grows hg)
  | class_ hk => exact .class_ (hk.grows hg)
  | object id hk => exact .object id (hk.grows hg)

/-- The nearest layer with a method is the same. -/
theorem findSome?_methods {ls : List (ClassLayer Names)} {ls' : List ClassLayer}
    (h : List.Forall₂ (SameLayer V m) ls ls') (x : String) :
    Option.Rel (SameCode V m withThis) (ls.findSome? (·.methods.get? x))
      (ls'.findSome? (·.methods.get? x)) := by
  induction h with
  | nil => exact .none
  | @cons k k' _ _ hl _ ih =>
    rw [List.findSome?_cons, List.findSome?_cons]
    have hm := hl.methods x
    generalize k.methods.get? x = f at hm
    generalize k'.methods.get? x = f' at hm
    cases hm with
    | none => exact ih
    | some hf => exact .some hf

theorem SameClass.method? {k : Class Names} {k' : Class} (h : SameClass V m k k') (x : String) :
    Option.Rel (SameCode V m withThis) (k.method? x) (k'.method? x) :=
  findSome?_methods h x

theorem SameClass.own {k : Class Names} {k' : Class} (h : SameClass V m k k') :
    SameLayer V m k.own k'.own := by
  cases h with
  | cons hl _ => exact hl

theorem SameClass.arity {k : Class Names} {k' : Class} (h : SameClass V m k k') :
    k.arity = k'.arity := by
  unfold Class.arity
  have hm := h.method? "init"
  generalize k.method? "init" = f at hm
  generalize k'.method? "init" = f' at hm
  cases hm with
  | none => rfl
  | some hf => simp only [Option.map_some, Closure.arity, hf.decl]

/-! ## Operators -/

variable {v w : Value Names} {v' w' : Value}

theorem Matches.truthy (h : Matches V m v v') : v.truthy = v'.truthy := by
  cases h <;> rfl

theorem Matches.shown (h : Matches V m v v') : v.shown = v'.shown := by
  cases h with
  | function id hf => simp only [Value.shown, Closure.name, hf.decl]
  | class_ hk => exact hk.own.name
  | object id hk => simp only [Value.shown, Class.name, hk.own.name]
  | _ => rfl

theorem Matches.arity? (h : Matches V m v v') : v.arity? = v'.arity? := by
  cases h with
  | function id hf => simp only [Value.arity?, Closure.arity, hf.decl]
  | class_ hk => simp only [Value.arity?, hk.arity]
  | _ => rfl

theorem Matches.equals (h : Matches V m v v') (h' : Matches V m w w') :
    v.equals w = v'.equals w' := by
  cases h with
  | class_ hk =>
    cases h' with
    | class_ hk' => simp only [Value.equals, hk.own.id, hk'.own.id]
    | _ => rfl
  | _ => cases h' <;> rfl

theorem Matches.settles (h : Matches V m v v') (op : Kind) : settles op v = settles op v' := by
  rw [Machine.settles, Machine.settles, h.truthy]

theorem Matches.ofConstant (k : Constant) : Matches V m (.ofConstant k) (.ofConstant k) := by
  cases k with
  | nil => exact .nil
  | bool b => exact .bool b
  | number x => exact .number x
  | text t => exact .text t

theorem Matches.applyUnary (h : Matches V m v v') (op : Kind) :
    SameResult V m (applyUnary op v) (applyUnary op v') := by
  unfold Machine.applyUnary
  cases op with
  | minus =>
    cases h with
    | number x => exact .ok (.number _)
    | _ => exact .error _
  | bang => rw [h.truthy]; exact .ok (.bool _)
  | _ => exact .error _

theorem sameResult_applyNumeric (op : Kind) (a b : Float) :
    SameResult V m (applyNumeric op a b) (applyNumeric op a b) := by
  unfold applyNumeric
  split
  · exact .ok (.number _)
  · exact .ok (.number _)
  · exact .ok (.number _)
  · exact .ok (.bool _)
  · exact .ok (.bool _)
  · exact .ok (.bool _)
  · exact .ok (.bool _)
  · exact .error _

theorem Matches.add (h : Matches V m v v') (h' : Matches V m w w') :
    SameResult V m (add v w) (add v' w') := by
  cases h with
  | number a =>
    cases h' with
    | number b => exact .ok (.number _)
    | _ => exact .error _
  | text a =>
    cases h' with
    | text b => exact .ok (.text _)
    | _ => exact .error _
  | _ => exact .error _

theorem Matches.applyBinary (h : Matches V m v v') (h' : Matches V m w w') (op : Kind) :
    SameResult V m (applyBinary op v w) (applyBinary op v' w') := by
  unfold Machine.applyBinary
  split
  · rw [h.equals h']; exact .ok (.bool _)
  · rw [h.equals h']; exact .ok (.bool _)
  · exact h.add h'
  · cases h with
    | number a =>
      cases h' with
      | number b => exact sameResult_applyNumeric op a b
      | _ => exact .error _
    | _ => exact .error _

end

end Lox.Lexical
