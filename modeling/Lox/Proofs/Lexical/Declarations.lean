import Lox.Proofs.Lexical.Agreement
import Lox.Proofs.Machine.Scopes

/-!
# Declarations

A declaration of the lexical interpreter makes a cell and extends the visible names; the machine
writes to the innermost scope. Where the two stood at the same place before (`Stands`), they do
so after it, with a larger link (`Extends`). The check of scopes does not let a scope have a name
twice, and so a declaration never meets a variable that is there already.

The scope of a call and those of `this` and `super` come into being with all their names at once.
For the link they are empty scopes at first, to which the names are added one by one.
-/

namespace Lox.Lexical

open Scoping Machine

variable {V : Visit → Prop} {m m' : Link} {ctx : Context} {place : Place} {names : Names}
  {env : Env} {s : Store} {w : World} {x : String}

/-- A place of the lexical interpreter and an environment of the machine at which the two can
execute a statement. -/
structure Stands (m : Link) (ctx : Context) (place : Place) (env : Env) : Prop where
  sees : m.Sees ctx place.names env
  tight : m.Tight ctx env
  settled : Settled ctx.scopes
  isLocal : place.isLocal = true ↔ ctx.scopes ≠ []

variable (V) in
/-- The lexical interpreter has come to new names, at which it stands where the machine does. -/
def Extends (m : Link) (ctx : Context) (isLocal : Bool) (env : Env) (w : World)
    (result : Option (Except RuntimeError Names × Store)) : Prop :=
  ∃ names m' s, result = some (.ok names, s) ∧ m.Grows (some env.top) m' ∧
    Stands m' ctx ⟨names, isLocal⟩ env ∧ Agree V m' s w

theorem Link.Sees.ne_nil (h : m.Sees ctx names env) : env ≠ [] := by
  intro hnil
  subst hnil
  by_cases hs : ctx.scopes = []
  · exact absurd (h.outermost hs) (by simp [globalEnv])
  · exact absurd (h.inner hs).1 (Nat.lt_irrefl _)

theorem Link.Sees.top_lt (h : m.Sees ctx names env) (hpos : 0 < m.size) : env.top < m.size := by
  by_cases hs : ctx.scopes = []
  · rw [h.outermost hs]
    exact hpos
  · exact (h.inner hs).2

/-- Only the scopes of a context count. -/
theorem Link.Sees.congr {ctx' : Context} (h : m.Sees ctx names env)
    (hs : ctx'.scopes = ctx.scopes) : m.Sees ctx' names env := by
  have hhops : ∀ x, ctx'.hops? x = ctx.hops? x := fun x => by rw [Context.hops?, hs]; rfl
  refine ⟨fun h' => h.outermost (hs ▸ h'), fun h' => h.inner (hs ▸ h'), fun hd hp => ?_,
    fun hx => h.free (hhops _ ▸ hx)⟩
  rw [Pending, hs] at hp
  exact h.bound (hhops _ ▸ hd) hp

namespace Stands

/-- Work elsewhere does not matter. -/
theorem grows (h : Stands m ctx place env) (hg : m.Grows none m') (hpos : 0 < m.size) :
    Stands m' ctx place env :=
  ⟨h.sees.grows hg, h.tight.grows hg (h.sees.top_lt hpos) (Option.some_ne_none _), h.settled,
    h.isLocal⟩

/-- A new scope without names. -/
theorem enter (ha : Agree V m s w) (hsees : m.Sees ctx names env) (hs : Settled ctx.scopes) :
    Stands m.push ctx.enter ⟨names, true⟩ (m.size :: env) where
  sees := hsees.enter hs ha.nonempty
  tight x _ := ha.cell_size x
  settled := hs.enter
  isLocal := iff_of_true rfl (List.cons_ne_nil _ _)

/-! ## Variables -/

/-- A declared name that has no value yet is `nil` for the machine. -/
theorem reserve (h : Stands m ctx place env) (ha : Agree V m s w)
    (hx : ctx.scopes.head?.bind (·.lookup x) = none) :
    Extends V m (ctx.add x true) place.isLocal env
      { w with heap := w.heap.write env.top x .nil } (Lexical.reserve place x s) := by
  unfold Lexical.reserve
  have hlocal : place.isLocal = true ↔ (ctx.add x true).scopes ≠ [] :=
    h.isLocal.trans scopes_add_ne_nil.symm
  by_cases hne : ctx.scopes = []
  -- A global name gets no cell: the names at hand stay as they are.
  · have henv : env = globalEnv := h.sees.outermost hne
    rw [if_neg (mt h.isLocal.1 (not_not.2 hne))]
    refine ⟨_, m, _, rfl, .refl m, ⟨h.sees.define_global hne x, ?_, h.settled.add x, hlocal⟩, ?_⟩
    · intro y _
      exact h.tight y (by rw [hne]; rfl)
    · subst henv
      exact ha.put_global x .nil
  · have hnone : m.cell env.top x = none := h.tight x hx
    rw [if_pos (h.isLocal.2 hne)]
    exact ⟨_, _, _, rfl, .bind hnone _,
      ⟨h.sees.define hne hnone _, h.tight.define hne x _, h.settled.add x, hlocal⟩,
      ha.reserve (h.sees.inner hne).1 (h.sees.inner hne).2 hnone⟩

/-- A value for the name that was declared last. -/
theorem put (h : Stands m (ctx.add x true) place env) (ha : Agree V m s w) {v : Value Names}
    {v' : Value} (hv : Matches V m v v') :
    Agree V m (s.put place.names x v) { w with heap := w.heap.write env.top x v' } := by
  unfold Store.put
  by_cases hne : ctx.scopes = []
  · have hscopes : (ctx.add x true).scopes = [] := Context.add_scopes_nil hne x true
    have hfree : place.names.lookup x = none := h.sees.free (by rw [Context.hops?, hscopes]; rfl)
    rw [hfree, h.sees.outermost hscopes]
    exact ha.put_global x hv
  -- The name was just added, so its cell is that of the innermost scope.
  · obtain ⟨c, l, hc, hcell, hl⟩ :=
      h.sees.bound (hops?_add_self hne x true) (not_pending_of_settled h.settled x)
    have htop : c = env.top := by
      cases env with
      | nil => cases hc
      | cons => exact (Option.some.inj hc).symm
    rw [hl]
    exact ha.put_local (htop ▸ hcell) hv

theorem declare (h : Stands m ctx place env) (ha : Agree V m s w)
    (hx : ctx.scopes.head?.bind (·.lookup x) = none) {v : Value Names} {v' : Value}
    (hv : Matches V m v v') :
    Extends V m (ctx.add x true) place.isLocal env
      { w with heap := w.heap.write env.top x v' } (Lexical.declare place x v s) := by
  obtain ⟨names, m', s', hres, hg, hst, hag⟩ := h.reserve ha hx
  have hput := hst.put hag (hv.grows hg)
  rw [Heap.write_write] at hput
  refine ⟨names, m', s'.put names x v, ?_, hg, hst, hput⟩
  simp only [Lexical.declare, bind, hres, change, pure]

/-- Parameters, one after another, in a scope that the machine makes with all of them. -/
theorem declareAll {heap : Heap} {params : List Token} {vs : List (Value Names)}
    {vs' : List Value} {b : Bindings Value} (h : Stands m ctx ⟨names, true⟩ env)
    (ha : Agree V m s { w with heap := (heap.newScope b).2 }) (htop : env.top = heap.scopes.size)
    (hclean : ∀ v ∈ ctx.visitParams params, v.Clean) (hlen : vs.length = params.length)
    (hvs : List.Forall₂ (Matches V m) vs vs') :
    Extends V m (ctx.defineAll params) true env
      { w with heap := (heap.newScope ((params.zip vs').foldl
        (fun b p => b.insert p.1.lexeme p.2) b)).2 } (Lexical.declareAll names params vs s) := by
  induction params generalizing m ctx names s vs vs' b with
  | nil =>
    have hres : Lexical.declareAll names [] vs s = some (.ok names, s) := by
      cases vs <;> rfl
    exact ⟨names, m, s, hres, .refl m, h, ha⟩
  | cons p rest ih =>
    cases hvs with
    | nil => cases hlen
    | @cons v v' vs vs' hv hvs =>
      obtain ⟨hp, hrest⟩ := List.forall_mem_cons.1 hclean
      obtain ⟨names', m', s', hres, hg, hst, hag⟩ := h.declare ha hp.declare hv
      -- A scope with one name written into it is a scope that was made with this name.
      rw [htop, ← Heap.newScope_insert] at hag
      obtain ⟨names'', m'', s'', hres', hg', hst', hag'⟩ := ih hst hag hrest (Nat.succ.inj hlen)
        (hvs.imp fun _ _ h => h.grows hg)
      refine ⟨names'', m'', s'', ?_, hg.trans hg', hst', hag'⟩
      simp only [Lexical.declareAll, bind, hres, hres']

end Stands

/-- A new scope with one name, such as `this`. -/
theorem Agree.declare_inside (ha : Agree V m s w) (hsees : m.Sees ctx names env)
    (hs : Settled ctx.scopes) (x : String) {v : Value Names} {v' : Value}
    (hv : Matches V m v v') :
    ∃ names' m' s', declare ⟨names, true⟩ x v s = some (.ok names', s') ∧ m.Grows none m' ∧
      m'.Sees (ctx.enter.add x true) names' (m.size :: env) ∧
      Agree V m' s' { w with heap := (w.heap.newScope [(x, v')]).2 } := by
  obtain ⟨names', m', s', hres, hg, hst, hag⟩ :=
    (Stands.enter ha hsees hs).declare ha.newScope rfl (hv.grows (.push m))
  refine ⟨names', m', s', hres, hg.leave, hst.sees, ?_⟩
  have hheap := w.heap.newScope_insert [] x v'
  rw [ha.size] at hheap
  rwa [show [(x, v')] = Bindings.insert [] x v' from rfl, hheap]

/-- The body of a function is entered with the parameters declared. -/
theorem SameCode.enter {f : Closure Names} {f' : Closure}
    (hf : SameCode V m (fun ctx => ctx) f f') (hV : ∀ {v}, V v → v.Clean) (ha : Agree V m s w)
    {vs : List (Value Names)} {vs' : List Value} (hlen : vs.length = f.arity)
    (hvs : List.Forall₂ (Matches V m) vs vs') :
    ∃ ctx, Stmt.FitAll V ctx f'.decl.body ∧
      Extends V m.push ctx true (m.size :: f'.env)
        { w with heap := (w.heap.newScope (Config.bindParams f'.decl.params vs')).2 }
        (declareAll f.env f.decl.params vs s) := by
  obtain ⟨ctx, kind, hs, hsees, hfit, -⟩ := hf.place
  obtain ⟨hparams, hbody⟩ := FunctionDecl.fits_iff.1 hfit
  have hst := Stands.enter ha hsees hs
  refine ⟨_, hbody, ?_⟩
  rw [hf.decl]
  refine Stands.declareAll ⟨hst.sees.congr rfl, hst.tight, hst.settled, hst.isLocal⟩ ha.newScope
    ha.size.symm (fun v hv => hV (hparams v hv)) (hlen.trans ?_)
    (hvs.imp fun _ _ h => h.grows (.push m))
  rw [Closure.arity, hf.decl]

/-! ## Functions and classes -/

theorem Stands.declareFunction (h : Stands m ctx place env) (ha : Agree V m s w)
    {decl : FunctionDecl} (hx : ctx.innermost? decl.name = none)
    (hfit : decl.Fits V (ctx.define decl.name) .function) :
    Extends V m (ctx.define decl.name) place.isLocal env
      { w with heap := w.heap.declareFunction env decl }
      (Lexical.declareFunction place decl s) := by
  obtain ⟨names, m', s', hres, hg, hst, hag⟩ := h.reserve ha hx
  -- The function keeps names that include its own, so that it can call itself.
  have hcode : SameCode V m' (fun ctx => ctx) ⟨decl, names, false⟩ ⟨decl, env, false⟩ :=
    ⟨rfl, rfl, _, _, hst.settled, hst.sees, hfit, nofun⟩
  have hput := hst.put hag.freshId (.function w.heap.nextId hcode)
  have hheap : w.heap.declareFunction env decl =
      (w.heap.write env.top decl.name.lexeme .nil).freshId.2.write env.top decl.name.lexeme
        (.function w.heap.nextId ⟨decl, env, false⟩) := by
    show w.heap.freshId.2.define env _ _ = (w.heap.freshId.2.write _ _ _).write _ _ _
    rw [Heap.define_eq_write h.sees.ne_nil, Heap.write_write]
  have hid : s'.nextId = w.heap.nextId := hag.nextId
  rw [hheap]
  refine ⟨names, m', _, ?_, hg, hst, hput⟩
  simp only [Lexical.declareFunction, bind, hres, newFunction, freshId, change, pure, hid]

/-- The methods of a class, as both make them from one list. -/
theorem Link.Sees.methodTable (hsees : m.Sees ctx names env) (hs : Settled ctx.scopes)
    {methods : List FunctionDecl}
    (hfit : ∀ f ∈ methods, f.Fits V (withThis ctx) (methodContext f.name)) (x : String) :
    Option.Rel (SameCode V m withThis) ((Heap.methodTable names methods).get? x)
      ((Heap.methodTable env methods).get? x) := by
  -- Along the methods, from any two tables that agree.
  have hgen : ∀ (ms : List FunctionDecl) (b : Bindings (Closure Names)) (b' : Bindings Closure),
      (∀ f ∈ ms, f.Fits V (withThis ctx) (methodContext f.name)) →
      Option.Rel (SameCode V m withThis) (b.get? x) (b'.get? x) →
      Option.Rel (SameCode V m withThis)
        ((ms.foldl (fun b decl => b.insert decl.name.lexeme
          (⟨decl, names, decl.name.lexeme = "init"⟩ : Closure Names)) b).get? x)
        ((ms.foldl (fun b decl => b.insert decl.name.lexeme
          (⟨decl, env, decl.name.lexeme = "init"⟩ : Closure)) b').get? x) := by
    intro ms
    induction ms with
    | nil => exact fun _ _ _ hb => hb
    | cons decl rest ih =>
      intro b b' hms hb
      obtain ⟨hdecl, hrest⟩ := List.forall_mem_cons.1 hms
      refine ih _ _ hrest ?_
      rw [Bindings.get?_insert, Bindings.get?_insert]
      split
      · exact .some ⟨rfl, rfl, ctx, _, hs, hsees, hdecl,
          fun _ => hops?_add_self (List.cons_ne_nil _ _) "this" true⟩
      · exact hb
  exact hgen methods [] [] hfit .none

/-- A class whose name is visible already. -/
theorem Agree.newClass (ha : Agree V m s w) {name : Token}
    (hsees : m.Sees (ctx.define name) names env) (hs : Settled (ctx.define name).scopes)
    {parent : Option (Class Names)} {parent' : Option Class}
    (hp : Option.Rel (SameClass V m) parent parent') {methods : List FunctionDecl}
    (hfit : ∀ f ∈ methods, f.Fits V (withThis (ctx.methodsOuter name parent'.isSome))
      (methodContext f.name)) :
    ∃ k m' s', newClass names name.lexeme parent methods s = some (.ok k, s') ∧
      m.Grows none m' ∧
      SameClass V m' k (w.heap.newClass env name.lexeme parent' methods).1 ∧
      Agree V m' s' { w with heap := (w.heap.newClass env name.lexeme parent' methods).2 } := by
  cases hp with
  | none =>
    have hsees' : m.Sees (ctx.methodsOuter name false) names env := hsees.congr rfl
    refine ⟨_, m, _, rfl, .refl m, .cons ⟨ha.nextId, rfl, ?_⟩ .nil, ha.freshId⟩
    exact hsees'.methodTable hs hfit
  | @some k k' hk =>
    -- The methods stand inside the scope of `super`.
    obtain ⟨inner, m', s', hres, hg, hsees', hag⟩ :=
      ha.freshId.declare_inside hsees hs "super" (.class_ hk)
    have hs' : Settled (ctx.methodsOuter name true).scopes := (Settled.enter hs).add "super"
    have hinner : m'.Sees (ctx.methodsOuter name true) inner (w.heap.scopes.size :: env) := by
      rw [ha.size]
      exact hsees'.congr rfl
    refine ⟨⟨⟨s.nextId, name.lexeme, Heap.methodTable inner methods⟩, k.lineage⟩, m', s', ?_, hg,
      .cons ⟨ha.nextId, rfl, ?_⟩ (hk.grows hg), hag⟩
    · simp only [Lexical.newClass, bind, Lexical.freshId, hres, pure]
    · exact hinner.methodTable hs' hfit

theorem Stands.declareClass (h : Stands m ctx place env) (ha : Agree V m s w) {name : Token}
    (hx : ctx.innermost? name = none) {parent : Option (Class Names)} {parent' : Option Class}
    (hp : Option.Rel (SameClass V m) parent parent') {methods : List FunctionDecl}
    (hfit : ∀ f ∈ methods, f.Fits V (withThis (ctx.methodsOuter name parent'.isSome))
      (methodContext f.name)) :
    Extends V m (ctx.define name) place.isLocal env
      { w with heap := w.heap.declareClass env name.lexeme parent' methods }
      (Lexical.declareClass place name.lexeme parent methods s) := by
  -- First comes the name, then the class with its methods, and last the class under its name.
  obtain ⟨names, m₁, s₁, hres₁, hg₁, hst, hag₁⟩ := h.reserve ha hx
  obtain ⟨k, m₂, s₂, hres₂, hg₂, hk, hag₂⟩ := hag₁.newClass hst.sees hst.settled
    (hp.mono fun _ _ hk => hk.grows hg₁) hfit
  have hst₂ := hst.grows hg₂ hag₁.nonempty
  have hlt : env.top < w.heap.scopes.size := by
    rw [ha.size]
    exact h.sees.top_lt ha.nonempty
  rw [Heap.declareClass_eq_write h.sees.ne_nil hlt]
  refine ⟨names, m₂, _, ?_, hg₁.trans hg₂.weaken, hst₂, hst₂.put hag₂ (.class_ hk)⟩
  simp only [Lexical.declareClass, bind, hres₁, hres₂, change, pure]

/-! ## Methods on objects -/

theorem Agree.bindMethod (ha : Agree V m s w) {f : Closure Names} {f' : Closure}
    (hf : SameCode V m withThis f f') {i : Nat} {k : Class Names} {k' : Class}
    (hk : SameClass V m k k') :
    ∃ code m' s', bindMethod f ⟨i, k⟩ s = some (.ok code, s') ∧ m.Grows none m' ∧
      SameCode V m' (fun ctx => ctx) code (w.heap.bind f' ⟨i, k'⟩).1 ∧
      Agree V m' s' { w with heap := (w.heap.bind f' ⟨i, k'⟩).2 } := by
  obtain ⟨ctx, kind, hs, hsees, hfit, -⟩ := hf.place
  obtain ⟨names, m', s', hres, hg, hsees', hag⟩ :=
    ha.declare_inside hsees hs "this" (.object i hk)
  refine ⟨{ f with env := names }, m', s', ?_, hg, ⟨hf.decl, hf.isInitializer, withThis ctx, kind,
    hs.enter.add "this", ?_, hfit, fun _ => hops?_add_self (List.cons_ne_nil _ _) "this" true⟩,
    hag⟩
  · simp only [Lexical.bindMethod, bind, hres, pure]
  · show m'.Sees _ _ (w.heap.scopes.size :: f'.env)
    rw [ha.size]
    exact hsees'

theorem Agree.boundMethod (ha : Agree V m s w) {f : Closure Names} {f' : Closure}
    (hf : SameCode V m withThis f f') {i : Nat} {k : Class Names} {k' : Class}
    (hk : SameClass V m k k') :
    ∃ v m' s', boundMethod f ⟨i, k⟩ s = some (.ok v, s') ∧ m.Grows none m' ∧
      Matches V m' v (w.heap.boundMethod f' ⟨i, k'⟩).1 ∧
      Agree V m' s' { w with heap := (w.heap.boundMethod f' ⟨i, k'⟩).2 } := by
  obtain ⟨code, m', s', hres, hg, hcode, hag⟩ := ha.bindMethod hf (i := i) hk
  refine ⟨.function s'.nextId code, m', { s' with nextId := s'.nextId + 1 }, ?_, hg, ?_,
    hag.freshId⟩
  · simp only [Lexical.boundMethod, bind, hres, newFunction, Lexical.freshId, pure]
  · rw [hag.nextId]
    exact .function _ hcode

end Lox.Lexical
