import Lox.Machine.Step
import Lox.Proofs.Heap.Scopes
import Lox.Proofs.Scoping.Fits

/-!
# Static scopes and the scopes of a running program

The check of scopes keeps a stack of static scopes; a running program has an environment, a list
of scopes in the heap. This module says when the second realizes the first (`Realizes`): both
have the same depth, every ready name of a static scope is bound in the scope at the same place,
and the innermost scope has no other names.

Scopes only gain names, and only the innermost one does (`Heap.Grows`), so an environment goes
on to realize its context while other work is done. Functions and classes are in order
(`Value.Fits`) if the environment that they keep realizes the context of their declaration.
-/

namespace Lox

namespace Scoping

/-! ## What a context says about one name -/

/-- What each scope says about a name, innermost first. -/
def Context.view (ctx : Context) (name : String) : List (Option Bool) :=
  ctx.scopes.map (·.lookup name)

theorem Context.hops?_eq_view (ctx : Context) (name : String) :
    ctx.hops? name = (ctx.view name).findIdx? Option.isSome := by
  simp [hops?, view, List.findIdx?_map, Function.comp_def]

theorem Context.innermost?_eq_view (ctx : Context) (name : Token) :
    ctx.innermost? name = (ctx.view name.lexeme).head?.join := by
  cases hs : ctx.scopes with
  | nil => simp [innermost?, view, hs]
  | cons scope outer => simp [innermost?, view, hs]

/-- A name of the innermost scope is at distance zero. -/
theorem Context.hops?_of_innermost? {ctx : Context} {name : Token} {ready : Bool}
    (h : ctx.innermost? name = some ready) : ctx.hops? name.lexeme = some 0 := by
  obtain ⟨scope, hscope, hlook⟩ := Option.bind_eq_some_iff.1 h
  obtain ⟨outer, hs⟩ := List.head?_eq_some_iff.1 hscope
  rw [hops?, hs, List.findIdx?_cons, hlook]
  rfl

theorem Context.length_view (ctx : Context) (name : String) :
    (ctx.view name).length = ctx.scopes.length := by
  simp [view]

theorem Context.view_add_of_ne (ctx : Context) {name other : String} (h : name ≠ other)
    (ready : Bool) : (ctx.add name ready).view other = ctx.view other := by
  cases hs : ctx.scopes with
  | nil => simp [add, view, hs]
  | cons scope outer =>
    have hb : (other == name) = false := beq_false_of_ne h.symm
    simp [add, view, hs, List.lookup_cons, hb]

@[simp] theorem Context.add_function (ctx : Context) (name : String) (ready : Bool) :
    (ctx.add name ready).function = ctx.function := by
  unfold add
  split <;> rfl

@[simp] theorem Context.add_class_ (ctx : Context) (name : String) (ready : Bool) :
    (ctx.add name ready).class_ = ctx.class_ := by
  unfold add
  split <;> rfl

theorem Context.add_scopes_nil {ctx : Context} (h : ctx.scopes = []) (name : String)
    (ready : Bool) : (ctx.add name ready).scopes = [] := by
  simp [add, h]

theorem Context.add_scopes_cons {ctx : Context} {scope : StaticScope} {outer : List StaticScope}
    (h : ctx.scopes = scope :: outer) (name : String) (ready : Bool) :
    (ctx.add name ready).scopes = ((name, ready) :: scope) :: outer := by
  simp [add, h]

theorem Context.defineAll_scopes_nil {ctx : Context} (h : ctx.scopes = []) (names : List Token) :
    (ctx.defineAll names).scopes = [] := by
  induction names generalizing ctx with
  | nil => exact h
  | cons n rest ih => exact ih (add_scopes_nil h n.lexeme true)

theorem Context.defineAll_function (ctx : Context) (names : List Token) :
    (ctx.defineAll names).function = ctx.function := by
  induction names generalizing ctx with
  | nil => rfl
  | cons name rest ih => exact (ih (ctx.define name)).trans (ctx.add_function name.lexeme true)

theorem Context.defineAll_class_ (ctx : Context) (names : List Token) :
    (ctx.defineAll names).class_ = ctx.class_ := by
  induction names generalizing ctx with
  | nil => rfl
  | cons name rest ih => exact (ih (ctx.define name)).trans (ctx.add_class_ name.lexeme true)

/-- Names never open a scope or close one. -/
theorem Context.length_scopes_defineAll (ctx : Context) (names : List Token) :
    (ctx.defineAll names).scopes.length = ctx.scopes.length := by
  induction names generalizing ctx with
  | nil => rfl
  | cons name rest ih =>
    refine (ih (ctx.define name)).trans ?_
    rw [define, add]
    split <;> simp [*]

/-- Every name is ready. -/
def Settled (scopes : List StaticScope) : Prop :=
  ∀ scope ∈ scopes, ∀ name, scope.lookup name ≠ some false

theorem Settled.head? {scopes : List StaticScope} (h : Settled scopes) (name : String) :
    scopes.head?.bind (·.lookup name) ≠ some false := by
  intro hfalse
  obtain ⟨scope, hscope, hlook⟩ := Option.bind_eq_some_iff.1 hfalse
  exact h scope (List.mem_of_mem_head? hscope) name hlook

theorem Settled.enter {ctx : Context} (h : Settled ctx.scopes) : Settled ctx.enter.scopes := by
  intro scope hs name
  rcases List.mem_cons.1 hs with rfl | hs
  · simp
  · exact h scope hs name

theorem Settled.add {ctx : Context} (h : Settled ctx.scopes) (name : String) :
    Settled (ctx.add name true).scopes := by
  cases hs : ctx.scopes with
  | nil => rw [Context.add_scopes_nil hs]; exact hs ▸ h
  | cons scope outer =>
    rw [Context.add_scopes_cons hs]
    rw [hs] at h
    intro scope' hs' n
    rcases List.mem_cons.1 hs' with rfl | hs'
    · rw [List.lookup_cons]
      split
      · simp
      · exact h scope List.mem_cons_self n
    · exact h scope' (List.mem_cons_of_mem _ hs') n

theorem Settled.defineAll {ctx : Context} (h : Settled ctx.scopes) (names : List Token) :
    Settled (ctx.defineAll names).scopes := by
  induction names generalizing ctx with
  | nil => exact h
  | cons n rest ih => exact ih (h.add n.lexeme)

end Scoping

open Scoping

/-! ## Scopes gain names -/

/-- Nothing is lost from one heap to the other, and of the scopes of the first only `top` may
gain names. -/
structure Heap.Grows (top : ScopeId) (h h' : Heap) : Prop where
  size_le : h.scopes.size ≤ h'.scopes.size
  keeps : ∀ {s n}, h.binds s n → h'.binds s n
  adds : ∀ {s n}, s < h.scopes.size → s ≠ top → h'.binds s n → h.binds s n

namespace Heap.Grows

variable {top : ScopeId} {h h' : Heap}

theorem of_scopes_eq (hs : h'.scopes = h.scopes) : Grows top h h' where
  size_le := Nat.le_of_eq (by rw [hs])
  keeps hb := by rwa [h.binds_congr hs]
  adds _ _ hb := by rwa [h.binds_congr hs] at hb

theorem trans {h'' : Heap} (a : Grows top h h') (b : Grows top h' h'') : Grows top h h'' where
  size_le := Nat.le_trans a.size_le b.size_le
  keeps hb := b.keeps (a.keeps hb)
  adds hs ht hb := a.adds hs ht (b.adds (Nat.lt_of_lt_of_le hs a.size_le) ht hb)

theorem newScope (b : Bindings Value) : Grows top h (h.newScope b).2 where
  size_le := by simp
  keeps := by
    intro s n hb
    have hs : s ≠ h.scopes.size := Nat.ne_of_lt (h.lt_size_of_binds hb)
    rw [binds_newScope, if_neg hs]
    exact hb
  adds := by
    intro s n hs _ hb
    rwa [binds_newScope, if_neg (Nat.ne_of_lt hs)] at hb

/-- A declaration adds a name to the innermost scope. -/
theorem write_top (n : String) (v : Value) : Grows top h (h.write top n v) where
  size_le := by simp
  keeps hb := (h.binds_write ..).2 (.inr hb)
  adds := by
    intro s m _ hs hb
    rcases (h.binds_write ..).1 hb with ⟨rfl, _⟩ | hb
    · exact absurd rfl hs
    · exact hb

/-- An assignment adds no name. -/
theorem write_bound {s : ScopeId} {n : String} (hb : h.binds s n) (v : Value) :
    Grows top h (h.write s n v) where
  size_le := by simp
  keeps hb := (h.binds_write ..).2 (.inr hb)
  adds := by
    intro s' m _ _ hb'
    rwa [h.binds_write_of_binds hb] at hb'

end Heap.Grows

/-! ## Environments that realize a context -/

/-- A scope has every ready name of a static scope. -/
def Heap.Covers (h : Heap) (s : ScopeId) (scope : StaticScope) : Prop :=
  ∀ n, scope.lookup n = some true → h.binds s n

/-- An environment has the depth of a stack of static scopes, with the globals around it, and
each of its scopes covers the static one at the same place. -/
inductive Heap.Models (h : Heap) : List StaticScope → Env → Prop
  | globals : Models h [] globalEnv
  | scope {s : ScopeId} {scope : StaticScope} {outer : List StaticScope} {env : Env} :
      globalScope < s → s < h.scopes.size → h.Covers s scope → Models h outer env →
      Models h (scope :: outer) (s :: env)

/-- The innermost scope of an environment has no name but those of the static scope. -/
def Heap.Exact (h : Heap) : List StaticScope → Env → Prop
  | scope :: _, s :: _ => ∀ n, h.binds s n → scope.lookup n = some true
  | _, _ => True

/-- The innermost scope of an environment. -/
def Env.top (env : Env) : ScopeId := env.headD globalScope

/-- An environment is as a context says. Names that are not ready may stand in the innermost
scope only. -/
structure Heap.Realizes (h : Heap) (scopes : List StaticScope) (env : Env) : Prop where
  models : h.Models scopes env
  exact : h.Exact scopes env
  outer : Settled scopes.tail

namespace Heap

variable {h h' : Heap} {scopes : List StaticScope} {env : Env} {top : ScopeId}

theorem Models.grows (hm : h.Models scopes env) (hg : h.Grows top h') : h'.Models scopes env := by
  induction hm with
  | globals => exact .globals
  | scope hpos hlt hc _ ih =>
    exact .scope hpos (Nat.lt_of_lt_of_le hlt hg.size_le) (fun n hn => hg.keeps (hc n hn)) ih

theorem Models.top_lt_size (hm : h.Models scopes env) (hpos : 0 < h.scopes.size) :
    env.top < h.scopes.size := by
  cases hm with
  | globals => exact hpos
  | scope _ hlt _ _ => exact hlt

theorem Models.exists_locals (hm : h.Models scopes env) :
    ∃ locals, env = locals ++ globalEnv ∧ globalScope ∉ locals ∧
      locals.length = scopes.length := by
  induction hm with
  | globals => exact ⟨[], rfl, List.not_mem_nil, rfl⟩
  | @scope s scope outer env hpos _ _ _ ih =>
    obtain ⟨locals, rfl, hne, hlen⟩ := ih
    refine ⟨s :: locals, rfl, ?_, by rw [List.length_cons, List.length_cons, hlen]⟩
    intro hmem
    -- Every scope of the environment has a number above that of the globals.
    rcases List.mem_cons.1 hmem with heq | hmem
    · exact absurd (heq ▸ hpos) (Nat.lt_irrefl _)
    · exact hne hmem

theorem Exact.grows (he : h.Exact scopes env) (hm : h.Models scopes env) (hg : h.Grows top h')
    (ht : env.top ≠ top) : h'.Exact scopes env := by
  cases hm with
  | globals => trivial
  | scope _ hlt _ _ => exact fun n hb => he n (hg.adds hlt ht hb)

/-- Work inside other scopes does not touch what an environment realizes. -/
theorem Realizes.grows (hr : h.Realizes scopes env) (hg : h.Grows top h') (ht : env.top ≠ top) :
    h'.Realizes scopes env :=
  ⟨hr.models.grows hg, hr.exact.grows hr.models hg ht, hr.outer⟩

/-- A change that adds no name at all. -/
theorem Realizes.grows_any (hr : h.Realizes scopes env) (hg : ∀ top, h.Grows top h') :
    h'.Realizes scopes env :=
  hr.grows (hg (env.top + 1)) (Nat.ne_of_lt (Nat.lt_succ_self _))

theorem Models.ne_nil (hm : h.Models scopes env) : env ≠ [] := by
  cases hm <;> simp [globalEnv]

/-- A declaration writes to the innermost scope. -/
theorem define_eq_write (hne : env ≠ []) (n : String) (v : Value) :
    h.define env n v = h.write env.top n v := by
  cases env with
  | nil => exact absurd rfl hne
  | cons s outer => rfl

/-! ## Looking a name up at its distance -/

theorem Models.getElem? (hm : h.Models scopes env) {d : Nat} {scope : StaticScope}
    (hd : scopes[d]? = some scope) : ∃ s, env[d]? = some s ∧ h.Covers s scope := by
  induction hm generalizing d with
  | globals => cases hd
  | @scope s _ _ _ _ _ hc _ ih =>
    cases d with
    | zero =>
      cases hd
      exact ⟨s, rfl, hc⟩
    | succ d => exact ih hd

/-- A name that is ready is bound at its distance. -/
theorem Realizes.bound {ctx : Context} {name : Token} {d : Nat}
    (hr : h.Realizes ctx.scopes env) (hd : ctx.hops? name.lexeme = some d)
    (hready : ctx.innermost? name ≠ some false) :
    ∃ s, env[d]? = some s ∧ h.binds s name.lexeme := by
  obtain ⟨hlt, hsome, -⟩ := List.findIdx?_eq_some_iff_getElem.1 hd
  obtain ⟨ready, hlook⟩ := Option.isSome_iff_exists.1 hsome
  -- The scopes of the two stand at the same places, so the distance leads to the one that covers
  -- the static scope.
  obtain ⟨s, hs, hc⟩ := hr.models.getElem? (List.getElem?_eq_getElem hlt)
  refine ⟨s, hs, hc _ ?_⟩
  -- Only the innermost scope may hold names that are not ready.
  cases ready with
  | true => exact hlook
  | false =>
    exfalso
    cases d with
    | zero =>
      refine hready ?_
      rw [Context.innermost?, List.head?_eq_getElem?, List.getElem?_eq_getElem hlt]
      exact hlook
    | succ d =>
      refine hr.outer _ (List.mem_iff_getElem.2 ⟨d, ?_, ?_⟩) name.lexeme hlook
      · rw [List.length_tail]
        exact Nat.lt_sub_of_add_lt hlt
      · exact List.getElem_tail _

/-- A name that is not ready is not bound at its distance. -/
theorem Realizes.unbound {ctx : Context} {name : Token} (hr : h.Realizes ctx.scopes env)
    (hready : ctx.innermost? name = some false) :
    ctx.hops? name.lexeme = some 0 ∧ ∃ s, env[0]? = some s ∧ ¬h.binds s name.lexeme := by
  obtain ⟨hm, he, -⟩ := hr
  cases hs : ctx.scopes with
  | nil => simp [Context.innermost?, hs] at hready
  | cons scope outer =>
    have hlook : scope.lookup name.lexeme = some false := by
      simpa [Context.innermost?, hs] using hready
    rw [hs] at hm he
    cases hm with
    | @scope s _ _ _ _ _ _ _ =>
      refine ⟨Context.hops?_of_innermost? hready, s, rfl, fun hb => ?_⟩
      have htrue := he _ hb
      rw [hlook] at htrue
      cases htrue

/-- Entering a new scope whose bindings are the names of a static scope. -/
theorem Models.enter (hm : h.Models scopes env) (hpos : 0 < h.scopes.size) (hs : Settled scopes)
    (scope : StaticScope) {b : Bindings Value}
    (hb : ∀ n, scope.lookup n = some true ↔ (b.get? n).isSome) :
    (h.nest env b).2.Realizes (scope :: scopes) (h.nest env b).1 := by
  have hbinds : ∀ n, (h.newScope b).2.binds h.scopes.size n ↔ (b.get? n).isSome := by
    intro n
    rw [binds_newScope, if_pos rfl]
  have hg : h.Grows 0 (h.newScope b).2 := .newScope b
  refine ⟨.scope hpos (by simp) ?_ (hm.grows hg), ?_, hs⟩
  · intro n hn
    exact (hbinds n).2 ((hb n).1 hn)
  · intro n hn
    exact (hb n).2 ((hbinds n).1 hn)

/-- A name that is declared and not ready asks for nothing. -/
theorem Realizes.declare {ctx : Context} (hr : h.Realizes ctx.scopes env) {name : Token}
    (hn : ctx.innermost? name = none) : h.Realizes (ctx.declare name).scopes env := by
  obtain ⟨hm, he, ho⟩ := hr
  cases hs : ctx.scopes with
  | nil =>
    rw [hs] at hm
    rw [Context.declare, Context.add_scopes_nil hs]
    exact ⟨hm, trivial, nofun⟩
  | cons scope outer =>
    rw [hs] at hm he ho
    rw [Context.declare, Context.add_scopes_cons hs]
    have hnone : scope.lookup name.lexeme = none := by simpa [Context.innermost?, hs] using hn
    have hlook : ∀ n, ((name.lexeme, false) :: scope).lookup n = some true ↔
        scope.lookup n = some true := by
      intro n
      by_cases hnn : n = name.lexeme
      · subst hnn; simp [hnone]
      · simp [List.lookup_cons, beq_false_of_ne hnn]
    cases hm with
    | scope hpos hlt hc hm =>
      exact ⟨.scope hpos hlt (fun n h => hc n ((hlook n).1 h)) hm,
        fun n h => (hlook n).2 (he n h), ho⟩

/-- A name that was not ready is ready once it has a value. -/
theorem Realizes.define {ctx : Context} {name : Token} {ready : Bool}
    (hr : h.Realizes (ctx.add name.lexeme ready).scopes env) (v : Value) :
    (h.define env name.lexeme v).Realizes (ctx.define name).scopes env := by
  obtain ⟨hm, he, ho⟩ := hr
  rw [define_eq_write hm.ne_nil]
  cases hs : ctx.scopes with
  | nil =>
    rw [Context.add_scopes_nil hs] at hm
    rw [Context.define, Context.add_scopes_nil hs]
    exact ⟨hm.grows (.write_top name.lexeme v), trivial, nofun⟩
  | cons scope outer =>
    rw [Context.add_scopes_cons hs] at hm he ho
    rw [Context.define, Context.add_scopes_cons hs]
    cases hm with
    | @scope s _ _ env hpos hlt hc hm =>
      -- The scope has what it had, and the name; in the static scope the name is ready at last.
      have hbinds : ∀ n, (h.write s name.lexeme v).binds s n ↔
          n = name.lexeme ∨ h.binds s n := by
        intro n
        rw [binds_write]
        refine or_congr_left ⟨fun hn => hn.2.1.symm, fun hn => ⟨rfl, hn.symm, hlt⟩⟩
      have hlook : ∀ n, n ≠ name.lexeme → ∀ r : Bool,
          ((name.lexeme, r) :: scope).lookup n = scope.lookup n := by
        intro n hn r
        simp [List.lookup_cons, beq_false_of_ne hn]
      refine ⟨.scope hpos (by simpa using hlt) ?_ (hm.grows (.write_top name.lexeme v)), ?_, ho⟩
      · intro n hn
        refine (hbinds n).2 (or_iff_not_imp_left.2 fun hne => hc n ?_)
        rw [hlook n hne] at hn ⊢
        exact hn
      · intro n hn
        rcases (hbinds n).1 hn with rfl | hn
        · simp
        · by_cases hne : n = name.lexeme
          · subst hne; simp
          · have := he n hn
            rw [hlook n hne] at this ⊢
            exact this

end Heap

end Lox
