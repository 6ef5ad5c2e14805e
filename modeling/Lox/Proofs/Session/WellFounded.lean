import Lox.Proofs.Session.Confinement

/-!
# The heap is well-founded

Values make a heap cyclic: a function is stored in the very scope that it stands in, and an object
has its own bound method in a field. But two kinds of links never lead back. A scope is made inside
a scope that is there already, and a class inherits from a class that is there already, so along
these links the numbers fall. A walk outwards comes to the global scope and a walk through the
ancestors comes to a class without a superclass, after no more places than the number of the first
one says (`search`).

Main statement: so it is at every moment of every session (`Session.heap_well_founded`).
-/

namespace Lox

open Scoping Machine

/-! ## Walks -/

/-- Looks for something in one place after another. The answer is `none` if more than `limit`
places would have to be visited. -/
def search {σ α : Type} (next : σ → Option σ) (find : σ → Option α) (limit : Nat) (place : σ) :
    Option (Option α) :=
  match limit with
  | 0 => none
  | limit + 1 =>
    match find place with
    | some a => some (some a)
    | none =>
      match next place with
      | none => some none
      | some place => search next find limit place

section

variable {σ α : Type} {next : σ → Option σ} {find : σ → Option α} {limit : Nat} {place place' : σ}

theorem search_last (h : next place = none) :
    search next find (limit + 1) place = some (find place) := by
  unfold search
  cases hfind : find place with
  | none => simp only [h]
  | some a => rfl

theorem search_next (h : next place = some place') {found : Option α}
    (hnext : search next find limit place' = some found) :
    search next find (limit + 1) place = some ((find place).or found) := by
  unfold search
  cases hfind : find place with
  | none => simp only [h, hnext, Option.none_or]
  | some a => rfl

end

/-! ## Scopes -/

namespace Layout

variable {l l' : Layout}

/-- The scope around a scope. -/
def outer? (l : Layout) (s : ScopeId) : Option ScopeId := l.links[s]?.join

/-- The global scope has nothing around it, and each other scope stands inside an older one. -/
structure Rooted (l : Layout) : Prop where
  root : l.links[globalScope]? = some none
  inner : ∀ {s x}, s ≠ globalScope → l.links[s]? = some x → ∃ t < s, x = some t

theorem Rooted.grows (hl : l.Rooted) (hg : l.Grows l') : l'.Rooted := by
  obtain ⟨added, hadded⟩ := hg.links
  have hold : ∀ {s : ScopeId}, s < l.links.length → l'.links[s]? = l.links[s]? := by
    intro s hs
    rw [← hadded, List.getElem?_append_left hs]
  have hroot := (List.getElem?_eq_some_iff.1 hl.root).1
  constructor
  · rw [hold hroot]
    exact hl.root
  · intro s x hs hx
    by_cases hlt : s < l.links.length
    · rw [hold hlt] at hx
      exact hl.inner hs hx
    · exact hg.inner (Nat.le_of_not_lt hlt) hx

/-- A link leads to an older scope. -/
theorem Rooted.link_lt (hl : l.Rooted) {s t : ScopeId} (h : l.links[s]? = some (some t)) :
    t < s := by
  have hs : s ≠ globalScope := by
    rintro rfl
    rw [hl.root] at h
    cases h
  obtain ⟨t', hlt, ht⟩ := hl.inner hs h
  cases ht
  exact hlt

/-- The links lead outwards from every scope. -/
theorem Rooted.exists_follows (hl : l.Rooted) {s : ScopeId} (hs : s < l.links.length) :
    ∃ outer, Env.Follows l.links (s :: outer) := by
  induction s using Nat.strongRecOn with
  | ind s ih =>
    have hlink : l.links[s]? = some l.links[s] := List.getElem?_eq_getElem hs
    cases hx : l.links[s] with
    | none => exact ⟨[], .root (hlink.trans (congrArg some hx))⟩
    | some t =>
      have hlink := hlink.trans (congrArg some hx)
      have hlt := hl.link_lt hlink
      obtain ⟨outer, houter⟩ := ih t hlt (Nat.lt_trans hlt hs)
      exact ⟨t :: outer, .nest hlink houter⟩

end Layout

namespace Env.Follows

variable {l : Layout} {env : Env} {s : ScopeId} {outer : Env}

theorem getLast? (hl : l.Rooted) (h : env.Follows l.links) : env.getLast? = some globalScope := by
  induction h with
  | @root s hs =>
    have hs' : s = globalScope := by
      by_contra hne
      obtain ⟨t, -, ht⟩ := hl.inner hne hs
      cases ht
    rw [hs']
    rfl
  | nest _ _ ih => exact ih

/-- Each scope is younger than those around it. -/
theorem pairwise (hl : l.Rooted) (h : env.Follows l.links) : env.Pairwise (· > ·) := by
  induction h with
  | root _ => exact List.pairwise_singleton _ _
  | @nest s t outer hs _ ih =>
    have hlt := hl.link_lt hs
    refine List.pairwise_cons.2 ⟨?_, ih⟩
    exact List.forall_mem_cons.2
      ⟨hlt, fun u hu => Nat.lt_trans ((List.pairwise_cons.1 ih).1 u hu) hlt⟩

/-- A walk along the links finds what is in the environment. -/
theorem search {α : Type} (find : ScopeId → Option α) (hl : l.Rooted)
    (h : Env.Follows l.links (s :: outer)) {limit : Nat} (hlimit : s < limit) :
    search l.outer? find limit s = some ((s :: outer).findSome? find) := by
  generalize henv : s :: outer = env at h
  induction h generalizing s outer limit with
  | @root s hs =>
    cases henv
    obtain ⟨limit, rfl⟩ := Nat.exists_eq_succ_of_ne_zero (Nat.ne_zero_of_lt hlimit)
    have hnext : l.outer? s = none := by rw [Layout.outer?, hs]; rfl
    rw [search_last hnext, List.findSome?_singleton]
  | @nest s t outer hs _ ih =>
    cases henv
    obtain ⟨limit, rfl⟩ := Nat.exists_eq_succ_of_ne_zero (Nat.ne_zero_of_lt hlimit)
    have hnext : l.outer? s = some t := by rw [Layout.outer?, hs]; rfl
    -- The next scope has a smaller number, so one place less suffices from there.
    have hlt : t < limit := Nat.lt_of_lt_of_le (hl.link_lt hs) (Nat.le_of_lt_succ hlimit)
    rw [search_next hnext (ih hlt rfl), List.findSome?_cons (a := s)]
    cases find s <;> rfl

end Env.Follows

/-! ## Classes -/

namespace Class

variable {l : Layout} {k parent : Class}

theorem In.superclass (hk : k.In l) (hp : k.superclass? = some parent) :
    parent.In l ∧ parent.own.id < k.own.id := by
  obtain ⟨own, ancestors⟩ := k
  cases ancestors with
  | nil => cases hp
  | cons layer rest =>
    cases hp
    obtain ⟨holder, hrest⟩ := List.pairwise_cons.1 hk.older
    exact ⟨⟨fun layer' hl => hk.layers layer' (List.mem_cons_of_mem _ hl), hrest⟩,
      holder layer List.mem_cons_self⟩

/-- A walk through the ancestors finds the methods of a class. -/
theorem In.search (hk : k.In l) (name : String) {limit : Nat} (hlimit : k.own.id < limit) :
    search superclass? (·.own.methods.get? name) limit k = some (k.method? name) := by
  obtain ⟨own, ancestors⟩ := k
  induction ancestors generalizing own limit with
  | nil =>
    obtain ⟨limit, rfl⟩ := Nat.exists_eq_succ_of_ne_zero (Nat.ne_zero_of_lt hlimit)
    rw [search_last rfl]
    exact congrArg some (List.findSome?_singleton ..).symm
  | cons layer rest ih =>
    obtain ⟨limit, rfl⟩ := Nat.exists_eq_succ_of_ne_zero (Nat.ne_zero_of_lt hlimit)
    have hnext : superclass? (⟨own, layer :: rest⟩ : Class) = some ⟨layer, rest⟩ := rfl
    obtain ⟨hin, hlt⟩ := hk.superclass hnext
    rw [search_next hnext (ih layer hin (Nat.lt_of_lt_of_le hlt (Nat.le_of_lt_succ hlimit)))]
    show _ = some ((own :: layer :: rest).findSome? (·.methods.get? name))
    rw [List.findSome?_cons]
    cases own.methods.get? name <;> rfl

end Class

/-! ## Sessions -/

/-- Every moment of a run keeps to the layout of the interpreter, which grows. -/
theorem Interpreter.In.passes {l : Layout} {i : Interpreter} (hi : i.In l) {ss : List Stmt}
    {c : Config} (hp : i.Passes ss c) : c.Stays l := by
  induction hp generalizing l with
  | @here i s rest n =>
    have hstart : (i.start (.exec s)).In l := ⟨⟨hi.heap, hi.env, List.forall_mem_nil _⟩, trivial⟩
    exact hstart.iterate n
  | @later i i' s rest fuel signal c he _ _ ih =>
    obtain ⟨l', hg, hi'⟩ := hi.complete (.exec s) trivial he
    exact (ih hi').grows hg

namespace Session

variable {s : Session} {earlier : List String} {c : Config}

/-- The moments at which a session can be: at rest, and while it runs a source. -/
inductive Moment (s : Session) : Config → Prop
  | rest : Moment s (s.interpreter.start (.signal .done))
  | running {source : String} {c : Config} : s.Accepts source → s.Passes source c → Moment s c

/-- Between any two sources a session keeps to a layout. -/
theorem Reached.layout (h : s.Reached earlier) : ∃ l : Layout, l.Rooted ∧ s.interpreter.In l := by
  let P (env : Env) (world : World) : Prop :=
    ∃ l : Layout, l.Rooted ∧ world.heap.In l ∧ env.Follows l.links
  have hkeeps : P s.interpreter.env s.interpreter.world := by
    apply h.keeps
    · intro sink clock
      refine ⟨⟨[none], 0, 0⟩, ⟨rfl, ?_⟩, (Interpreter.in_new sink clock).heap, .root rfl⟩
      intro s x hs hx
      exact absurd (Nat.lt_one_iff.1 (List.getElem?_eq_some_iff.1 hx).1) hs
    · rintro i i' fuel st signal ⟨l, hl, hheap, henv⟩ he
      have hi : i.In l := ⟨hheap, henv⟩
      obtain ⟨l', hg, hi'⟩ := hi.complete (.exec st) trivial he
      exact ⟨l', hl.grows hg, hi'.heap, hi'.env⟩
  obtain ⟨l, hl, hheap, henv⟩ := hkeeps
  exact ⟨l, hl, hheap, henv⟩

/-- So does every moment of a session. -/
theorem Moment.layout (h : s.Reached earlier) (hm : s.Moment c) :
    ∃ l : Layout, l.Rooted ∧ c.In l := by
  obtain ⟨l, hl, hi⟩ := h.layout
  cases hm with
  | rest => exact ⟨l, hl, ⟨hi.heap, hi.env, List.forall_mem_nil _⟩, trivial⟩
  | @running source c ha hp =>
    have hloaded : (s.loaded source).In l := ⟨hi.heap, hi.env⟩
    obtain ⟨l', hg, hc⟩ := hloaded.passes hp
    exact ⟨l', hl.grows hg, hc⟩

/-- The heap stays well-founded. Whatever a session has come through, at each moment its scopes are
linked outwards to older scopes, up to the global one. All environments follow these links, those of
the machine as well as those of functions and methods, and everything that is referred to is there.
Hence a walk along the links that looks a name up comes to its end, and finds what the environment
has. The superclass of a class is older than the class, and the same holds of walks that look for a
method. -/
theorem heap_well_founded (h : s.Reached earlier) (hm : s.Moment c) :
    ∃ l : Layout, l.Rooted ∧ c.In l ∧
      (∀ scope < c.heap.scopes.size, ∃ outer, Env.Follows l.links (scope :: outer)) ∧
      (∀ scope outer, Env.Follows l.links (scope :: outer) →
        (scope :: outer).Pairwise (· > ·) ∧ (scope :: outer).getLast? = some globalScope ∧
        ∀ name,
          search l.outer? (c.heap.read · name) (scope + 1) scope =
            some (c.heap.get? (scope :: outer) name) ∧
          search l.outer? (Option.guard (c.heap.binds · name)) (scope + 1) scope =
            some (c.heap.scopeOf? (scope :: outer) name)) ∧
      ∀ k : Class, k.In l →
        (∀ parent, k.superclass? = some parent → parent.In l ∧ parent.own.id < k.own.id) ∧
        ∀ name, search Class.superclass? (·.own.methods.get? name) (k.own.id + 1) k =
          some (k.method? name) := by
  obtain ⟨l, hl, hc⟩ := Moment.layout h hm
  refine ⟨l, hl, hc, ?_, ?_, ?_⟩
  · intro scope hscope
    rw [hc.heap.scopes_size] at hscope
    exact hl.exists_follows hscope
  · intro scope outer henv
    refine ⟨henv.pairwise hl, henv.getLast? hl, fun name => ⟨?_, ?_⟩⟩
    · exact henv.search (c.heap.read · name) hl (Nat.lt_succ_self scope)
    · rw [henv.search _ hl (Nat.lt_succ_self scope), Heap.scopeOf?, List.find?_eq_findSome?_guard]
  · intro k hk
    exact ⟨fun parent hp => hk.superclass hp, fun name => hk.search name (Nat.lt_succ_self _)⟩

/-- An object has a method of its superclass in a field, bound to itself. When the method runs, the
variable that holds the object is two scopes further out. -/
theorem heap_well_founded_in_method :
    let source := "{ class A { m() { this; } } class B < A {} var b = B(); b.f = b.m; b.f(); }"
    ∃ c, still.Moment c ∧ still.Passes source c ∧ c.env = [4, 3, 1, 0] ∧
      c.heap.scopeOf? c.env "b" = some 1 ∧ ∃ l : Layout, l.Rooted ∧ c.In l ∧
        search l.outer? (Option.guard (c.heap.binds · "b")) 5 4 = some (some 1) := by
  intro source
  have ha : still.Accepts source := accepts_iff.2 ⟨rfl, by decide +kernel⟩
  have hmoment : (still.moment? source 32).map (fun c => (c.env, c.heap.scopeOf? c.env "b")) =
      some ([4, 3, 1, 0], some 1) := by decide +kernel
  obtain ⟨c, hc, heq⟩ := Option.map_eq_some_iff.1 hmoment
  obtain ⟨henv, hscope⟩ := Prod.mk.inj heq
  have hp := passes_of_moment? hc
  obtain ⟨l, hl, hin, -, hwalk, -⟩ :=
    heap_well_founded (Reached.new {} fun _ => 0) (Moment.running ha hp)
  have hfollows := hin.env
  rw [henv] at hfollows
  obtain ⟨-, -, hsearch⟩ := hwalk 4 [3, 1, 0] hfollows
  refine ⟨c, .running ha hp, hp, henv, hscope, l, hl, hin, ?_⟩
  rw [henv] at hscope
  rw [(hsearch "b").2, hscope]

end Session

end Lox
