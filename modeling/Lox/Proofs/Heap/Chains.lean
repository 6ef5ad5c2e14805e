import Lox.Proofs.Heap.Scopes
import Mathlib.Order.Lattice.Nat

/-!
# Chains of scopes

Scopes form a tree: from each one a chain leads outwards, chains share their outer scopes, and what
is written through one of them is seen through all. There are two ways to a binding. A walk outwards
stops at the first scope that has the name, and a distance leads to one scope only.

The tree is built by a sequence of operations (`ScopeTable.run`). Each of them keeps the
environments linked: what follows the first scope of an environment is the environment of another
scope (`Linked`). So a distance may be gone in two parts, and the scopes on the way are known by
their numbers alone.

Main statement: both ways agree, for reading as well as for writing, and an assignment changes one
binding and no other (`ScopeTable.walk_eq_distance`).
-/

namespace Lox

/-! ## Walks and distances in an environment -/

namespace Heap

variable (h : Heap) {env : Env} {k : Nat} {a : ScopeId} {n : String}

/-- A walk reads the name in the scope that it stops at. -/
theorem get?_eq_bind (env : Env) (n : String) :
    h.get? env n = (h.scopeOf? env n).bind (h.read · n) := by
  unfold get? scopeOf?
  induction env with
  | nil => rfl
  | cons s outer ih =>
    rw [List.findSome?_cons, List.find?_cons]
    cases hread : h.read s n with
    | none =>
      have hbinds : h.binds s n = false := by rw [binds, hread]; rfl
      rw [hbinds]
      exact ih
    | some v =>
      have hbinds : h.binds s n = true := by rw [binds, hread]; rfl
      rw [hbinds]
      exact hread.symm

/-- A walk stops at the first scope that has the name. -/
theorem scopeOf?_eq_some (hk : env[k]? = some a) (hb : h.binds a n)
    (hleast : ∀ j < k, ∀ b, env[j]? = some b → ¬h.binds b n) : h.scopeOf? env n = some a := by
  obtain ⟨hlt, rfl⟩ := List.getElem?_eq_some_iff.1 hk
  rw [scopeOf?, List.find?_eq_some_iff_getElem]
  refine ⟨hb, k, hlt, rfl, fun j hj => ?_⟩
  have hj' := hleast j hj _ (List.getElem?_eq_getElem (hj.trans hlt))
  simpa using hj'

theorem scopeOf?_eq_none_iff :
    h.scopeOf? env n = none ↔ ∀ (k : Nat) (a : ScopeId), env[k]? = some a → ¬h.binds a n := by
  rw [scopeOf?, List.find?_eq_none]
  constructor
  · intro hnone k a hk
    exact hnone a (List.mem_of_getElem? hk)
  · intro hnone a ha
    obtain ⟨k, hk⟩ := List.getElem?_of_mem ha
    exact hnone k a hk

/-- A distance leads to its scope if that has the name. -/
theorem scopeAt?_eq_some (hk : env[k]? = some a) (hb : h.binds a n) :
    h.scopeAt? env k n = some a := by
  rw [scopeAt?, hk, Option.filter_some, if_pos hb]

theorem scopeAt?_eq_none (hk : ∀ a, env[k]? = some a → ¬h.binds a n) :
    h.scopeAt? env k n = none := by
  rw [scopeAt?]
  cases hscope : env[k]? with
  | none => rfl
  | some a => rw [Option.filter_some, if_neg (hk a hscope)]

end Heap

/-! ## Scopes that are built one after another -/

/-- The scopes that have been made, with the environment that starts at each. A scope is known by
its place in the order in which they were made. -/
structure ScopeTable where
  heap : Heap
  envs : List Env

/-- What can be done to scopes. -/
inductive ScopeOp where
  | new
  | nest (outer : ScopeId)
  | define (scope : ScopeId) (name : String) (value : Value)
  | assign (scope : ScopeId) (name : String) (value : Value)
  | assignAt (scope : ScopeId) (distance : Nat) (name : String) (value : Value)

namespace ScopeTable

section

variable (t : ScopeTable) (s : ScopeId) (k : Nat) (n : String) (v : Value)

/-- How many scopes there are. -/
def size : Nat := t.envs.length

/-- The environment that starts at a scope. -/
def env : Env := t.envs[s]?.getD []

/-- The scope at a distance outwards. -/
def ancestor? : Option ScopeId := ((t.env s).ancestor? k).bind List.head?

/-- The value that a walk outwards finds. -/
def get? : Option Value := t.heap.get? (t.env s) n

/-- The value in the scope at a distance. -/
def getAt? : Option Value := t.heap.getAt? (t.env s) k n

/-- Whether a change succeeds, and the scopes after it. One that fails changes nothing. -/
def change : Option Heap → Bool × ScopeTable
  | some heap => (true, { t with heap })
  | none => (false, t)

/-- Assigns to a name where a walk outwards finds it. -/
def assign : Bool × ScopeTable := t.change (t.heap.assign? (t.env s) n v)

/-- Assigns to a name in the scope at a distance. -/
def assignAt : Bool × ScopeTable := t.change (t.heap.assignAt? (t.env s) k n v)

/-- Makes a scope inside an environment. -/
def nestIn (outer : Env) : ScopeTable :=
  let (env, heap) := t.heap.nest outer []
  ⟨heap, t.envs ++ [env]⟩

/-- One operation. Nothing can be nested in a scope that is not there. -/
def apply : ScopeOp → ScopeTable
  | .new => t.nestIn []
  | .nest s => if s < t.size then t.nestIn (t.env s) else t
  | .define s n v => { t with heap := t.heap.define (t.env s) n v }
  | .assign s n v => (t.assign s n v).2
  | .assignAt s k n v => (t.assignAt s k n v).2

/-- All operations in order, from no scope at all. -/
def run (ops : List ScopeOp) : ScopeTable := ops.foldl apply ⟨.empty, []⟩

/-- The scope at a distance has a name. -/
def BoundAt : Prop := ∃ a, t.ancestor? s k = some a ∧ t.heap.binds a n

/-- The distance is the least one at which a name is bound. -/
def FoundAt : Prop := IsLeast {j | t.BoundAt s j n} k

end

/-- Of all bindings only that of `n` in `a` is another one: it has got the value `v`. It was there
before, and no other has come. Where a walk or a distance leads to it the new value is seen, and
elsewhere everything is seen as it was. -/
structure Assigned (t t' : ScopeTable) (a : ScopeId) (n : String) (v : Value) : Prop where
  bound : t.heap.binds a n
  envs : t'.envs = t.envs
  binds : ∀ s x, t'.heap.binds s x = t.heap.binds s x
  read : ∀ s x, t'.heap.read s x = if s = a ∧ x = n then some v else t.heap.read s x
  getAt? : ∀ s k x,
    t'.getAt? s k x = if t.ancestor? s k = some a ∧ x = n then some v else t.getAt? s k x
  get? : ∀ s k x, t.FoundAt s k x →
    t'.get? s x = if t.ancestor? s k = some a ∧ x = n then some v else t.get? s x

/-- An environment goes on behind its first scope as that of an older scope, if it goes on. -/
structure Linked (t : ScopeTable) : Prop where
  size : t.heap.scopes.size = t.size
  env : ∀ s < t.size, ∃ outer, t.env s = s :: outer ∧ (outer = [] ∨ ∃ b < s, t.env b = outer)

variable {t t' : ScopeTable} {s a : ScopeId} {k : Nat} {n : String} {v : Value}

theorem ancestor?_eq (t : ScopeTable) (s : ScopeId) (k : Nat) :
    t.ancestor? s k = (t.env s)[k]? := Env.head?_ancestor? _ _

/-- A distance leads to the bindings of the ancestor there. -/
theorem getAt?_eq (t : ScopeTable) (s : ScopeId) (k : Nat) (n : String) :
    t.getAt? s k n = (t.ancestor? s k).bind (t.heap.read · n) := by
  rw [ancestor?_eq]
  rfl

/-! ## Each operation keeps the links -/

theorem env_nestIn_of_lt (hs : s < t.size) (outer : Env) : (t.nestIn outer).env s = t.env s := by
  show (t.envs ++ [_])[s]?.getD [] = t.envs[s]?.getD []
  rw [List.getElem?_append_left hs]

theorem env_nestIn_self (t : ScopeTable) (outer : Env) :
    (t.nestIn outer).env t.size = t.heap.scopes.size :: outer := by
  show (t.envs ++ [_])[t.envs.length]?.getD [] = _
  rw [List.getElem?_concat_length]
  rfl

namespace Linked

theorem empty : Linked ⟨.empty, []⟩ := ⟨rfl, fun _ hs => absurd hs (Nat.not_lt_zero _)⟩

theorem nestIn (ht : t.Linked) {outer : Env} (houter : outer = [] ∨ ∃ b < t.size, t.env b = outer) :
    (t.nestIn outer).Linked := by
  have hsize : (t.nestIn outer).size = t.size + 1 := List.length_append
  refine ⟨?_, fun s hs => ?_⟩
  · rw [hsize, ← ht.size]
    exact t.heap.size_newScope []
  rw [hsize] at hs
  rcases Nat.lt_succ_iff_lt_or_eq.1 hs with hlt | rfl
  · obtain ⟨rest, henv, hrest⟩ := ht.env s hlt
    refine ⟨rest, (env_nestIn_of_lt hlt outer).trans henv, hrest.imp_right ?_⟩
    rintro ⟨b, hb, rfl⟩
    exact ⟨b, hb, env_nestIn_of_lt (hb.trans hlt) outer⟩
  · refine ⟨outer, by rw [env_nestIn_self, ht.size], houter.imp_right ?_⟩
    rintro ⟨b, hb, rfl⟩
    exact ⟨b, hb, env_nestIn_of_lt hb _⟩

/-- Bindings do not count. -/
theorem of_envs (ht : t.Linked) (henvs : t'.envs = t.envs)
    (hsize : t'.heap.scopes.size = t.heap.scopes.size) : t'.Linked := by
  have henv : t'.env = t.env := by
    funext s
    rw [ScopeTable.env, ScopeTable.env, henvs]
  have hsize' : t'.size = t.size := congrArg List.length henvs
  exact ⟨by rw [hsize, hsize', ht.size], by rw [henv, hsize']; exact ht.env⟩

/-- An assignment writes to one scope at most. -/
theorem change (ht : t.Linked) (target : Option ScopeId) (n : String) (v : Value) :
    (t.change (target.map (t.heap.write · n v))).2.Linked := by
  cases target with
  | none => exact ht
  | some a => exact ht.of_envs rfl (t.heap.size_write a n v)

theorem apply (ht : t.Linked) (op : ScopeOp) : (t.apply op).Linked := by
  cases op with
  | new => exact ht.nestIn (.inl rfl)
  | nest s =>
    unfold ScopeTable.apply
    dsimp only
    split
    · next hs => exact ht.nestIn (.inr ⟨s, hs, rfl⟩)
    · exact ht
  | define s n v =>
    refine ht.of_envs rfl ?_
    show (t.heap.define (t.env s) n v).scopes.size = _
    cases t.env s with
    | nil => rfl
    | cons a outer => exact t.heap.size_write a n v
  | assign s n v => exact ht.change (t.heap.scopeOf? (t.env s) n) n v
  | assignAt s k n v => exact ht.change (t.heap.scopeAt? (t.env s) k n) n v

/-- So the environments are linked after any operations. -/
theorem run (ops : List ScopeOp) : (run ops).Linked := by
  have hall : ∀ t : ScopeTable, t.Linked → (ops.foldl ScopeTable.apply t).Linked := by
    induction ops with
    | nil => exact fun _ ht => ht
    | cons op ops ih => exact fun t ht => ih _ (ht.apply op)
  exact hall _ empty

/-- What is left of an environment from a scope on is the environment of that scope. -/
theorem env_eq_drop (ht : t.Linked) (hs : s < t.size) (hk : t.ancestor? s k = some a) :
    t.env a = (t.env s).drop k := by
  rw [ancestor?_eq] at hk
  induction k generalizing s with
  | zero =>
    obtain ⟨outer, henv, -⟩ := ht.env s hs
    rw [henv] at hk
    obtain rfl : s = a := Option.some.inj hk
    rfl
  | succ k ih =>
    obtain ⟨outer, henv, houter⟩ := ht.env s hs
    rw [henv, List.getElem?_cons_succ] at hk
    rw [henv, List.drop_succ_cons]
    rcases houter with rfl | ⟨b, hb, rfl⟩
    · cases hk
    · exact ih (hb.trans hs) hk

end Linked

/-! ## Distances -/

/-- Two distances one after the other are their sum. -/
theorem ancestor?_add (ht : t.Linked) (hs : s < t.size) (i j : Nat) :
    (t.ancestor? s i).bind (t.ancestor? · j) = t.ancestor? s (i + j) := by
  cases hi : t.ancestor? s i with
  | none =>
    rw [ancestor?_eq, List.getElem?_eq_none_iff] at hi
    rw [Option.bind_none, ancestor?_eq, List.getElem?_eq_none (hi.trans (Nat.le_add_right i j))]
  | some a =>
    rw [Option.bind_some, ancestor?_eq, ht.env_eq_drop hs hi, List.getElem?_drop, ancestor?_eq]

theorem ancestor?_zero (ht : t.Linked) (hs : s < t.size) : t.ancestor? s 0 = some s := by
  obtain ⟨outer, henv, -⟩ := ht.env s hs
  rw [ancestor?_eq, henv]
  rfl

/-- A distance leads to nothing exactly if there is a last scope before it. -/
theorem ancestor?_eq_none_iff (ht : t.Linked) (hs : s < t.size) :
    t.ancestor? s k = none ↔
      ∃ j < k, ∃ last, t.ancestor? s j = some last ∧ t.ancestor? last 1 = none := by
  constructor
  · intro hnone
    induction k with
    | zero =>
      rw [ancestor?_zero ht hs] at hnone
      cases hnone
    | succ k ih =>
      cases hk : t.ancestor? s k with
      | none =>
        obtain ⟨j, hj, hlast⟩ := ih hk
        exact ⟨j, Nat.lt_succ_of_lt hj, hlast⟩
      | some last =>
        refine ⟨k, Nat.lt_succ_self k, last, hk, ?_⟩
        rw [← ancestor?_add ht hs, hk] at hnone
        exact hnone
  · rintro ⟨j, hj, last, hlast, hend⟩
    have hnone := ancestor?_add ht hs j 1
    rw [hlast, Option.bind_some, hend, ancestor?_eq, eq_comm, List.getElem?_eq_none_iff] at hnone
    rw [ancestor?_eq, List.getElem?_eq_none (hnone.trans hj)]

/-! ## Walks -/

theorem boundAt_iff : t.BoundAt s k n ↔ ∃ a, (t.env s)[k]? = some a ∧ t.heap.binds a n := by
  rw [BoundAt, ancestor?_eq]

instance : Decidable (t.BoundAt s k n) :=
  inferInstanceAs (Decidable (∃ a ∈ t.ancestor? s k, t.heap.binds a n))

/-- The name is bound at the distance and nowhere before. -/
theorem foundAt_iff : t.FoundAt s k n ↔ t.BoundAt s k n ∧ ∀ j < k, ¬t.BoundAt s j n := by
  constructor
  · exact fun h => ⟨h.1, fun j hj hb => Nat.not_lt.2 (h.2 hb) hj⟩
  · exact fun h => ⟨h.1, fun j hb => Nat.not_lt.1 fun hj => h.2 j hj hb⟩

instance : Decidable (t.FoundAt s k n) := decidable_of_iff _ foundAt_iff.symm

/-- A walk stops at the scope at the least distance. -/
theorem FoundAt.scopeOf? (h : t.FoundAt s k n) (hk : t.ancestor? s k = some a) :
    t.heap.scopeOf? (t.env s) n = some a := by
  obtain ⟨⟨a', ha', hb⟩, hleast⟩ := foundAt_iff.1 h
  obtain rfl : a' = a := Option.some.inj (ha'.symm.trans hk)
  rw [ancestor?_eq] at hk
  exact t.heap.scopeOf?_eq_some hk hb fun j hj b hb' hbinds =>
    hleast j hj (boundAt_iff.2 ⟨b, hb', hbinds⟩)

theorem scopeOf?_eq_none (h : ∀ k, ¬t.BoundAt s k n) : t.heap.scopeOf? (t.env s) n = none := by
  rw [Heap.scopeOf?_eq_none_iff]
  exact fun k a hk hb => h k (boundAt_iff.2 ⟨a, hk, hb⟩)

/-- Where a name is bound, there is a least distance to it. -/
theorem exists_foundAt (h : t.BoundAt s k n) : ∃ j, t.FoundAt s j n :=
  have hne : {j | t.BoundAt s j n}.Nonempty := ⟨k, h⟩
  ⟨_, Nat.sInf_mem hne, fun _ hj => Nat.sInf_le hj⟩

/-- A walk reads what is at the least distance. -/
theorem FoundAt.get? (h : t.FoundAt s k n) : t.get? s n = t.getAt? s k n := by
  obtain ⟨a, hk, -⟩ := h.1
  rw [ScopeTable.get?, Heap.get?_eq_bind, h.scopeOf? hk, getAt?_eq, hk]

/-- A name that is bound nowhere has no value, and any other has one. -/
theorem get?_eq_none_iff : t.get? s n = none ↔ ∀ k, ¬t.BoundAt s k n := by
  constructor
  · intro hnone k hk
    obtain ⟨j, hj⟩ := exists_foundAt hk
    obtain ⟨a, ha, hb⟩ := hj.1
    rw [hj.get?, getAt?_eq, ha, Option.bind_some] at hnone
    rw [Heap.binds, hnone] at hb
    cases hb
  · intro h
    rw [ScopeTable.get?, Heap.get?_eq_bind, scopeOf?_eq_none h, Option.bind_none]

/-! ## Assignments -/

/-- Distances and the scopes that have a name decide where the name is found. -/
theorem FoundAt.congr (h : t.FoundAt s k n) (henvs : t'.envs = t.envs)
    (hbinds : ∀ s x, t'.heap.binds s x = t.heap.binds s x) : t'.FoundAt s k n := by
  have hancestor : t'.ancestor? = t.ancestor? := by
    funext s k
    rw [ancestor?, ancestor?, env, env, henvs]
  unfold FoundAt BoundAt at h ⊢
  rw [hancestor]
  simp only [hbinds]
  exact h

/-- A binding that is there gets a new value. -/
theorem assigned_write (hb : t.heap.binds a n) (v : Value) :
    t.Assigned { t with heap := t.heap.write a n v } a n v := by
  have hread := t.heap.read_write_of_binds hb v
  have hbinds := t.heap.binds_write_of_binds hb v
  have hgetAt : ∀ s k x, getAt? { t with heap := t.heap.write a n v } s k x =
      if t.ancestor? s k = some a ∧ x = n then some v else t.getAt? s k x := by
    intro s k x
    rw [getAt?_eq, getAt?_eq]
    show (t.ancestor? s k).bind ((t.heap.write a n v).read · x) = _
    cases t.ancestor? s k with
    | none => simp
    | some b => simp [hread]
  refine ⟨hb, rfl, hbinds, hread, hgetAt, fun s k x hfound => ?_⟩
  have hfound' : FoundAt { t with heap := t.heap.write a n v } s k x := hfound.congr rfl hbinds
  rw [hfound'.get?, hfound.get?, hgetAt]

theorem assignAt_of_bound (hk : t.ancestor? s k = some a) (hb : t.heap.binds a n) (v : Value) :
    t.assignAt s k n v = (true, { t with heap := t.heap.write a n v }) := by
  rw [ancestor?_eq] at hk
  rw [assignAt, Heap.assignAt?, t.heap.scopeAt?_eq_some hk hb]
  rfl

theorem assignAt_of_not_bound (h : ¬t.BoundAt s k n) (v : Value) :
    t.assignAt s k n v = (false, t) := by
  have hnone : ∀ a, (t.env s)[k]? = some a → ¬t.heap.binds a n :=
    fun a hk hb => h (boundAt_iff.2 ⟨a, hk, hb⟩)
  rw [assignAt, Heap.assignAt?, t.heap.scopeAt?_eq_none hnone]
  rfl

/-- A walk assigns at the least distance. -/
theorem FoundAt.assign (h : t.FoundAt s k n) (v : Value) :
    t.assign s n v = t.assignAt s k n v := by
  obtain ⟨a, hk, hb⟩ := h.1
  rw [assignAt_of_bound hk hb, ScopeTable.assign, Heap.assign?, h.scopeOf? hk]
  rfl

theorem assign_of_not_bound (h : ∀ k, ¬t.BoundAt s k n) (v : Value) :
    t.assign s n v = (false, t) := by
  rw [assign, Heap.assign?, scopeOf?_eq_none h]
  rfl

/-- Walking along a chain agrees with going to a distance, whatever has been done to the scopes
before. A walk reads and assigns what is at the least distance at which the name is bound; if there
is none, there is nothing to be read and an assignment fails. An assignment at a distance succeeds
if the scope there has the name and fails otherwise. One that fails changes nothing, and one that
succeeds changes this one binding, wherever it is seen from. Distances add up, and they lead to
nothing exactly if the chain comes to its last scope before. -/
theorem walk_eq_distance (ops : List ScopeOp) {s : ScopeId} (hs : s < (run ops).size) :
    let t := run ops
    (∀ n,
      (∀ k, t.FoundAt s k n → t.get? s n = t.getAt? s k n) ∧
      (t.get? s n = none ↔ ∀ k, ¬t.BoundAt s k n)) ∧
    (∀ n v,
      (∀ k, t.FoundAt s k n → t.assign s n v = t.assignAt s k n v) ∧
      ((∀ k, ¬t.BoundAt s k n) → t.assign s n v = (false, t)) ∧
      (∀ k, ¬t.BoundAt s k n → t.assignAt s k n v = (false, t)) ∧
      ∀ k a, t.ancestor? s k = some a → t.heap.binds a n →
        ∃ t', t.assignAt s k n v = (true, t') ∧ t.Assigned t' a n v) ∧
    t.ancestor? s 0 = some s ∧
    ∀ i j, (t.ancestor? s i).bind (t.ancestor? · j) = t.ancestor? s (i + j) ∧
      (t.ancestor? s (i + j) = none ↔
        ∃ k < i + j, ∃ last, t.ancestor? s k = some last ∧ t.ancestor? last 1 = none) := by
  intro t
  have ht : t.Linked := .run ops
  refine ⟨fun n => ⟨fun k hk => hk.get?, get?_eq_none_iff⟩, fun n v => ⟨fun k hk => hk.assign v,
    fun hn => assign_of_not_bound hn v, fun k hk => assignAt_of_not_bound hk v, ?_⟩,
    ancestor?_zero ht hs, fun i j => ⟨ancestor?_add ht hs i j, ancestor?_eq_none_iff ht hs⟩⟩
  intro k a hk hb
  exact ⟨_, assignAt_of_bound hk hb v, assigned_write hb v⟩

/-- Two chains share their last scope. An assignment through one of them, from two scopes further
in, is seen through the other. -/
theorem walk_eq_distance_shared :
    let t := run [.new, .nest 0, .nest 1, .nest 0, .define 0 "x" .nil, .define 1 "y" .nil]
    2 < t.size ∧ t.FoundAt 2 2 "x" ∧ t.ancestor? 2 3 = none ∧
      ∃ t', t.assign 2 "x" (.bool true) = (true, t') ∧ t'.get? 3 "x" = some (.bool true) ∧
        t'.get? 2 "y" = some .nil := by
  intro t
  have hs : 2 < t.size := by decide
  have hinner : t.FoundAt 2 2 "x" := by decide
  have hother : t.FoundAt 3 1 "x" := by decide
  have hlocal : t.FoundAt 2 1 "y" := by decide
  obtain ⟨-, hwrites, -, hdistances⟩ := walk_eq_distance _ hs
  obtain ⟨hassign, -, -, hassigned⟩ := hwrites "x" (.bool true)
  obtain ⟨t', hat, hchanged⟩ := hassigned 2 0 rfl rfl
  refine ⟨hs, hinner, (hdistances 2 1).2.2 ⟨2, by decide, 0, rfl, rfl⟩, t',
    (hassign 2 hinner).trans hat, ?_, ?_⟩
  · rw [hchanged.get? 3 1 "x" hother]
    rfl
  · rw [hchanged.get? 2 1 "y" hlocal]
    rfl

end ScopeTable

end Lox
