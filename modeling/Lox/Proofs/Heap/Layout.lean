import Lox.Proofs.Heap.Fits

/-!
# How a heap is laid out

A scope is made inside an environment, and the scope that is innermost there stays the one around
it for good. The heap does not write this down: each environment lists all its scopes. A *layout*
does, as a table of links from each scope to the one around it, and says besides how many objects
and how many ids have been handed out.

A heap is laid out as a layout says if all environments in it follow the links, all objects and
ids in it have been handed out, and the ancestors of a class are older than the class
(`Heap.In`). The operations on the heap keep it so. They change no link, and a new scope has its
link to an older one (`Layout.Grows`).
-/

namespace Lox

/-- The scope around each scope, if there is one, and the numbers of objects and of ids. -/
structure Layout where
  links : List (Option ScopeId)
  objects : Nat
  ids : Nat

/-- An environment goes from scope to scope along the links, and ends where there is none. -/
inductive Env.Follows (links : List (Option ScopeId)) : Env → Prop
  | root {s : ScopeId} : links[s]? = some none → Follows links [s]
  | nest {s t : ScopeId} {outer : Env} :
      links[s]? = some (some t) → Follows links (t :: outer) → Follows links (s :: t :: outer)

section

variable (l : Layout)

def Closure.In (code : Closure) : Prop := code.env.Follows l.links

structure ClassLayer.In (layer : ClassLayer) : Prop where
  id_lt : layer.id < l.ids
  methods : ∀ {name f}, layer.methods.get? name = some f → f.In l

/-- A class, whose ancestors are older from one to the next. -/
structure Class.In (k : Class) : Prop where
  layers : ∀ layer ∈ k.lineage, layer.In l
  older : k.lineage.Pairwise fun layer ancestor => ancestor.id < layer.id

structure Object.In (o : Object) : Prop where
  id_lt : o.id < l.objects
  class_ : o.class_.In l

/-- All that a value refers to is there. -/
def Value.In : Value → Prop
  | .function id code => id < l.ids ∧ code.In l
  | .class_ k => k.In l
  | .object o => o.In l
  | .nil | .bool _ | .number _ | .text _ | .builtin _ => True

/-- The layout counts what is in the heap, and all that the values in it refer to is there. -/
structure Heap.In (h : Heap) : Prop where
  scopes_size : h.scopes.size = l.links.length
  fields_size : h.fields.size = l.objects
  nextId : h.nextId = l.ids
  scopes : ∀ {s n v}, h.read s n = some v → v.In l
  fields : ∀ {o n v}, (h.fieldsOf o).get? n = some v → v.In l

/-- A layout with more in it. Each new scope stands inside an older one. -/
structure Layout.Grows (l' : Layout) : Prop where
  links : l.links <+: l'.links
  inner : ∀ {s x}, l.links.length ≤ s → l'.links[s]? = some x → ∃ t < s, x = some t
  objects : l.objects ≤ l'.objects
  ids : l.ids ≤ l'.ids

end

variable {l l' l'' : Layout}

/-! ## Environments -/

namespace Env.Follows

variable {links : List (Option ScopeId)} {env : Env}

theorem append (h : env.Follows links) (added : List (Option ScopeId)) :
    env.Follows (links ++ added) := by
  have hkeep : ∀ {s : ScopeId} {x}, links[s]? = some x → (links ++ added)[s]? = some x := by
    intro s x hs
    rw [List.getElem?_append_left (List.getElem?_eq_some_iff.1 hs).1]
    exact hs
  induction h with
  | root hs => exact .root (hkeep hs)
  | nest hs _ ih => exact .nest (hkeep hs) ih

end Env.Follows

/-! ## Growth -/

namespace Layout

theorem Grows.refl (l : Layout) : l.Grows l where
  links := List.prefix_rfl
  inner := by
    intro s x hs hx
    rw [List.getElem?_eq_none hs] at hx
    cases hx
  objects := Nat.le_refl _
  ids := Nat.le_refl _

theorem Grows.trans (a : l.Grows l') (b : l'.Grows l'') : l.Grows l'' where
  links := a.links.trans b.links
  inner := by
    intro s x hs hx
    by_cases hlt : s < l'.links.length
    · obtain ⟨added, hadded⟩ := b.links
      rw [← hadded, List.getElem?_append_left hlt] at hx
      exact a.inner hs hx
    · exact b.inner (Nat.le_of_not_lt hlt) hx
  objects := Nat.le_trans a.objects b.objects
  ids := Nat.le_trans a.ids b.ids

/-- A new scope inside an environment. -/
def nest (l : Layout) (env : Env) : Layout := { l with links := l.links ++ [env.head?] }

/-- A new object. -/
def addObject (l : Layout) : Layout := { l with objects := l.objects + 1 }

/-- A new id. -/
def addId (l : Layout) : Layout := { l with ids := l.ids + 1 }

theorem grows_addObject (l : Layout) : l.Grows l.addObject :=
  ⟨List.prefix_rfl, (Grows.refl l).inner, Nat.le_succ _, Nat.le_refl _⟩

theorem grows_addId (l : Layout) : l.Grows l.addId :=
  ⟨List.prefix_rfl, (Grows.refl l).inner, Nat.le_refl _, Nat.le_succ _⟩

theorem grows_nest {env : Env} (henv : env.Follows l.links) : l.Grows (l.nest env) where
  links := List.prefix_append _ _
  inner := by
    intro s x hs hx
    -- There is one new scope, with its link to the innermost scope of the environment.
    have hlast : s = l.links.length := by
      have hlt := (List.getElem?_eq_some_iff.1 hx).1
      rw [nest, List.length_append, List.length_singleton] at hlt
      exact Nat.le_antisymm (Nat.le_of_lt_succ hlt) hs
    subst hlast
    rw [nest, List.getElem?_concat_length] at hx
    cases henv with
    | @root t ht => exact ⟨t, (List.getElem?_eq_some_iff.1 ht).1, (Option.some.inj hx).symm⟩
    | @nest t _ _ ht _ => exact ⟨t, (List.getElem?_eq_some_iff.1 ht).1, (Option.some.inj hx).symm⟩
  objects := Nat.le_refl _
  ids := Nat.le_refl _

end Layout

/-- The environment with a new scope in it. -/
theorem Env.Follows.nested {env : Env} (henv : env.Follows l.links) :
    Env.Follows (l.nest env).links (l.links.length :: env) := by
  have hlink : (l.nest env).links[l.links.length]? = some env.head? := by
    rw [Layout.nest, List.getElem?_concat_length]
  have houter : env.Follows (l.nest env).links := henv.append _
  cases henv with
  | root _ => exact .nest hlink houter
  | nest _ _ => exact .nest hlink houter

section

variable (hg : l.Grows l')
include hg

theorem Env.Follows.grows {env : Env} (h : env.Follows l.links) : env.Follows l'.links := by
  obtain ⟨added, hadded⟩ := hg.links
  rw [← hadded]
  exact h.append added

theorem Closure.In.grows {code : Closure} (h : code.In l) : code.In l' := Env.Follows.grows hg h

theorem ClassLayer.In.grows {layer : ClassLayer} (h : layer.In l) : layer.In l' :=
  ⟨Nat.lt_of_lt_of_le h.id_lt hg.ids, fun hf => (h.methods hf).grows hg⟩

theorem Class.In.grows {k : Class} (h : k.In l) : k.In l' :=
  ⟨fun layer hl => (h.layers layer hl).grows hg, h.older⟩

theorem Object.In.grows {o : Object} (h : o.In l) : o.In l' :=
  ⟨Nat.lt_of_lt_of_le h.id_lt hg.objects, h.class_.grows hg⟩

theorem Value.In.grows {v : Value} (h : v.In l) : v.In l' := by
  cases v with
  | function id code => exact ⟨Nat.lt_of_lt_of_le h.1 hg.ids, h.2.grows hg⟩
  | class_ k => exact Class.In.grows hg h
  | object o => exact Object.In.grows hg h
  | nil | bool | number | text | builtin => trivial

end

theorem Value.in_ofConstant (l : Layout) (k : Constant) : (Value.ofConstant k).In l := by
  cases k <;> trivial

theorem Class.In.method {k : Class} (hk : k.In l) {name : String} {f : Closure}
    (hf : k.method? name = some f) : f.In l := by
  obtain ⟨layer, hl, hget⟩ := List.exists_of_findSome?_eq_some hf
  exact (hk.layers layer hl).methods hget

/-! ## Changes of the heap -/

namespace Heap.In

variable {h : Heap} {v : Value} {env : Env}

theorem write (hh : h.In l) (s : ScopeId) (n : String) (hv : v.In l) : (h.write s n v).In l where
  scopes_size := by rw [size_write, hh.scopes_size]
  fields_size := hh.fields_size
  nextId := hh.nextId
  scopes := by
    intro s' n' w hr
    rw [read_write] at hr
    split at hr
    · cases hr
      exact hv
    · exact hh.scopes hr
  fields := hh.fields

theorem define (hh : h.In l) (env : Env) (n : String) (hv : v.In l) : (h.define env n v).In l := by
  cases env with
  | nil => exact hh
  | cons s outer => exact hh.write s n hv

/-- A new scope, and the environment with it. -/
theorem nest (hh : h.In l) (henv : env.Follows l.links) {b : Bindings Value}
    (hb : ∀ n v, b.get? n = some v → v.In l) :
    (h.nest env b).1.Follows (l.nest env).links ∧ (h.nest env b).2.In (l.nest env) := by
  have hg := Layout.grows_nest henv
  refine ⟨?_, ?_, hh.fields_size, hh.nextId, ?_, fun hr => (hh.fields hr).grows hg⟩
  · show Env.Follows _ (h.scopes.size :: env)
    rw [hh.scopes_size]
    exact henv.nested
  · rw [nest_snd, size_newScope, hh.scopes_size, Layout.nest, List.length_append,
      List.length_singleton]
  · intro s n v hr
    rw [nest_snd, read_newScope] at hr
    split at hr
    · exact (hb n v hr).grows hg
    · exact (hh.scopes hr).grows hg

theorem freshId (hh : h.In l) : h.freshId.1 < l.addId.ids ∧ h.freshId.2.In l.addId := by
  have hg := l.grows_addId
  refine ⟨?_, hh.scopes_size, hh.fields_size, congrArg (· + 1) hh.nextId,
    fun hr => (hh.scopes (by exact hr)).grows hg, fun hr => (hh.fields (by exact hr)).grows hg⟩
  show h.nextId < l.ids + 1
  rw [hh.nextId]
  exact Nat.lt_succ_self _

theorem newObject (hh : h.In l) {k : Class} (hk : k.In l) :
    (h.newObject k).1.In l.addObject ∧ (h.newObject k).2.In l.addObject := by
  have hg := l.grows_addObject
  refine ⟨⟨?_, hk.grows hg⟩, hh.scopes_size, ?_, hh.nextId,
    fun hr => (hh.scopes (by exact hr)).grows hg,
    fun hr => (hh.fields (h.get?_fieldsOf_newObject hr)).grows hg⟩
  · show h.fields.size < l.objects + 1
    rw [hh.fields_size]
    exact Nat.lt_succ_self _
  · show (h.fields.push []).size = l.objects + 1
    rw [Array.size_push, hh.fields_size]

theorem setField (hh : h.In l) (o : Object) (n : String) (hv : v.In l) :
    (h.setField o n v).In l where
  scopes_size := hh.scopes_size
  fields_size := by
    show (h.fields.modify o.id (·.insert n v)).size = l.objects
    rw [Array.size_modify, hh.fields_size]
  nextId := hh.nextId
  scopes hr := hh.scopes (by exact hr)
  fields := by
    intro o' n' w hr
    rcases h.eq_or_get?_of_setField hr with rfl | hr
    · exact hv
    · exact hh.fields hr

/-- A scope with one binding. -/
theorem nest_single (hh : h.In l) (henv : env.Follows l.links) (n : String) (hv : v.In l) :
    (h.nest env [(n, v)]).1.Follows (l.nest env).links ∧
      (h.nest env [(n, v)]).2.In (l.nest env) := by
  apply hh.nest henv
  intro n' w hget
  obtain ⟨-, rfl⟩ := Bindings.eq_of_get?_single hget
  exact hv

theorem bind (hh : h.In l) {method : Closure} (hm : method.In l) {o : Object} (ho : o.In l) :
    (h.bind method o).1.In (l.nest method.env) ∧ (h.bind method o).2.In (l.nest method.env) :=
  hh.nest_single hm "this" (v := .object o) ho

theorem newFunction (hh : h.In l) {code : Closure} (hc : code.In l) :
    (h.newFunction code).1.In l.addId ∧ (h.newFunction code).2.In l.addId := by
  obtain ⟨hid, hheap⟩ := hh.freshId
  exact ⟨⟨hid, hc.grows l.grows_addId⟩, hheap⟩

theorem declareFunction (hh : h.In l) (henv : env.Follows l.links) (decl : FunctionDecl) :
    (h.declareFunction env decl).In l.addId := by
  have hcode : Closure.In l ⟨decl, env, false⟩ := henv
  obtain ⟨hf, hheap⟩ := hh.newFunction hcode
  exact hheap.define env decl.name.lexeme hf

/-- The class gets a new id, so its ancestors are older. -/
theorem newClass (hh : h.In l) (henv : env.Follows l.links) (name : String)
    {parent : Option Class} (hp : ∀ k ∈ parent, k.In l) (methods : List FunctionDecl) :
    ∃ l', l.Grows l' ∧ (h.newClass env name parent methods).1.In l' ∧
      (h.newClass env name parent methods).2.In l' := by
  obtain ⟨hid, hheap⟩ := hh.freshId
  have htable : ∀ {l' : Layout} {inner : Env}, inner.Follows l'.links → h.freshId.1 < l'.ids →
      ClassLayer.In l' ⟨h.freshId.1, name, methodTable inner methods⟩ := by
    intro l' inner hinner hlt
    refine ⟨hlt, fun hf => ?_⟩
    obtain ⟨decl, -, rfl⟩ := get?_methodTable hf
    exact hinner
  cases parent with
  | none =>
    refine ⟨l.addId, l.grows_addId, ⟨?_, List.pairwise_singleton _ _⟩, hheap⟩
    exact List.forall_mem_singleton.2 (htable henv hid)
  | some k =>
    have hk : k.In l := hp k rfl
    have houter : env.Follows l.addId.links := henv
    obtain ⟨hinner, hheap⟩ := hheap.nest_single houter "super" (v := .class_ k)
      (hk.grows l.grows_addId)
    have hg : l.Grows (l.addId.nest env) := l.grows_addId.trans (Layout.grows_nest henv)
    refine ⟨_, hg, ⟨?_, ?_⟩, hheap⟩
    · exact List.forall_mem_cons.2 ⟨htable hinner hid, (hk.grows hg).layers⟩
    · refine List.pairwise_cons.2 ⟨fun layer hl => ?_, hk.older⟩
      -- The ids of the superclass and its ancestors were handed out before.
      show layer.id < h.nextId
      rw [hh.nextId]
      exact (hk.layers layer hl).id_lt

theorem declareClass (hh : h.In l) (henv : env.Follows l.links) (name : String)
    {parent : Option Class} (hp : ∀ k ∈ parent, k.In l) (methods : List FunctionDecl) :
    ∃ l', l.Grows l' ∧ (h.declareClass env name parent methods).In l' := by
  have hnil : (h.define env name .nil).In l := hh.define env name trivial
  obtain ⟨l', hg, hk, hheap⟩ := hnil.newClass henv name hp methods
  refine ⟨l', hg, ?_⟩
  unfold Heap.declareClass
  dsimp only
  split
  · next s _ => exact hheap.write s name hk
  · exact hheap

end Heap.In

end Lox
