import Lox.Proofs.Session.InternalFaults
import Lox.Proofs.Tree.Nodes

/-!
# Ids of nodes

The nodes that look a name up get their ids when a source is read, and a session goes on counting
from source to source. Ids of nodes that errors drop are not given out again. So no two nodes share
an id, be they in one source or in two, and the table of distances, which is kept under these ids
for as long as the session lasts, only ever gains entries.

Main statement: `Session.node_ids_unique`.
-/

namespace Lox

open Scoping Machine

namespace Session

variable {s s' : Session} {programs : List (List Stmt)} {source : String} {fuel : Nat}

/-- A session that has come to where it is through sources and resets, and the programs that it has
read in the sources, those with errors among them. -/
inductive Trees : Session → List (List Stmt) → Prop
  | new (sink : Sink) (clock : Nat → Float) : Trees (new sink clock) []
  | run {s s' : Session} {programs : List (List Stmt)} {fuel : Nat} {source : String}
      {t : Transcript} : Trees s programs → s.run fuel source = some (s', t) →
      Trees s' (programs ++ [(s.parsed source).statements])
  | reset {s : Session} {programs : List (List Stmt)} : Trees s programs → Trees s.reset programs

/-- What a session can come to from here on. -/
inductive Continues (s : Session) : Session → Prop
  | refl : Continues s s
  | run {s' s'' : Session} {fuel : Nat} {source : String} {t : Transcript} :
      Continues s s' → s'.run fuel source = some (s'', t) → Continues s s''
  | reset {s' : Session} : Continues s s' → Continues s s'.reset

/-! ## The ids of a source -/

/-- Nothing is on file under ids that are still to be handed out. -/
def Unfiled (s : Session) : Prop := ∀ id, s.nextId ≤ id → s.interpreter.distances[id]? = none

/-- The ids in a source are new, whatever errors it has. -/
theorem fresh_ids (s : Session) (source : String) :
    s.nextId ≤ (s.parsed source).nextId ∧
      Fresh s.nextId (s.parsed source).nextId (Part.program (s.parsed source).statements).ids := by
  obtain ⟨d, hd, hle, hread⟩ := parse_read s.nextId (Lexer.tokens (scan source))
  rw [parsed, ← hd]
  exact ⟨hle, hread.built.fresh⟩

/-- A source is given ids from where the session stands, and changes nothing that is on file about
ids from before. -/
theorem Unfiled.run (h : s.Unfiled) {t : Transcript} (hrun : s.run fuel source = some (s', t)) :
    s'.nextId = (s.parsed source).nextId ∧ s'.Unfiled ∧
      ∀ id, id < s.nextId → s'.interpreter.distances[id]? = s.interpreter.distances[id]? := by
  by_cases hc : s.Checks source
  · have hfiled := extends_filed h source false false
    rw [run_of_checks hc] at hrun
    -- The program is run or rejected; either way the check has filed what it found.
    split at hrun
    · obtain ⟨⟨error, i⟩, hi, hend⟩ := Option.map_eq_some_iff.1 hrun
      obtain ⟨rfl, -⟩ := Prod.mk.inj hend
      have hd : i.distances = (s.loaded source).distances := Interpreter.interpret_distances hi
      unfold Unfiled
      rw [hd]
      exact ⟨rfl, hfiled.unfiled, hfiled.kept⟩
    · obtain ⟨rfl, -⟩ := Prod.mk.inj (Option.some.inj hrun)
      exact ⟨rfl, hfiled.unfiled, hfiled.kept⟩
  · rw [run_of_syntaxErrors hc] at hrun
    obtain ⟨rfl, -⟩ := Prod.mk.inj (Option.some.inj hrun)
    have hparsed := extends_parsed h source false false
    exact ⟨rfl, hparsed.unfiled, hparsed.kept⟩

/-- The ids in all programs of a session are different, and have been handed out. -/
theorem Trees.fresh (h : s.Trees programs) :
    s.Unfiled ∧ Fresh 0 s.nextId (programs.flatMap fun program => (Part.program program).ids) := by
  -- Along the history: the ids of each source begin where those of the sources before it end.
  induction h with
  | new sink clock => exact ⟨fun id _ => Std.TreeMap.getElem?_emptyc (a := id), .nil⟩
  | @run s s' programs fuel source t _ hrun ih =>
    obtain ⟨hunfiled, hfresh⟩ := ih
    obtain ⟨hnext, hunfiled', -⟩ := hunfiled.run hrun
    obtain ⟨hle, hnew⟩ := s.fresh_ids source
    refine ⟨hunfiled', ?_⟩
    rw [hnext, List.flatMap_append, List.flatMap_singleton]
    exact hfresh.append hnew (Nat.zero_le _) hle
  | reset _ ih => exact ih

/-- What is on file stays on file. -/
theorem Unfiled.continues (h : s.Unfiled) (hs : s.Continues s') :
    s'.Unfiled ∧ ∀ (id : NodeId) (hops : Nat), s.interpreter.distances[id]? = some hops →
      s'.interpreter.distances[id]? = some hops := by
  induction hs with
  | refl => exact ⟨h, fun _ _ hfile => hfile⟩
  | @run s' s'' fuel source t _ hrun ih =>
    obtain ⟨hunfiled, hkept⟩ := ih
    obtain ⟨-, hunfiled', hkept'⟩ := hunfiled.run hrun
    refine ⟨hunfiled', fun id hops hfile => ?_⟩
    have hfile' := hkept id hops hfile
    -- An id with an entry has been handed out, and the ids of the source are new.
    by_cases hid : id < s'.nextId
    · rw [hkept' id hid]
      exact hfile'
    · rw [hunfiled id (Nat.le_of_not_lt hid)] at hfile'
      cases hfile'
  | reset _ ih => exact ih

/-- A distance goes on file where there is none yet, also among those of one source. -/
theorem Unfiled.file (h : s.Unfiled) {before after : List Finding} {id : NodeId} {hops : Nat}
    (hcheck : check (s.parsed source).statements = before ++ .distance id hops :: after) :
    (s.interpreter.distances.file before)[id]? = none := by
  have hfresh := s.fresh_visitsAll source
  -- Each visit files at most one distance, so the ids that are filed differ as those of visits do.
  have hsublist := sublist_flatMap_findings
    (Stmt.visitsAll Context.top (s.parsed source).statements)
  have hid : (Finding.distance id hops).id? = some id := rfl
  rw [← check_eq, hcheck, List.filterMap_append, List.filterMap_cons_some hid] at hsublist
  have hmem := hsublist.subset (List.mem_append_right _ List.mem_cons_self)
  have hnodup := hfresh.nodup.sublist hsublist
  rw [Distances.getElem?_file_of_not_filed, h id (hfresh.within id hmem).1]
  intro hbefore
  exact (List.nodup_append.1 hnodup).2.2 id hbefore id List.mem_cons_self rfl

/-- Among programs that have all ids different, an id leads to one place in one of them. -/
theorem place_eq {i j : Nat} {p q : List Stmt}
    (hnodup : (programs.flatMap fun program => (Part.program program).ids).Nodup)
    (hi : programs[i]? = some p) (hj : programs[j]? = some q) {trail trail' : Trail}
    {e e' : Expr} (hp : Reaches (.program p) trail (.expr e))
    (hq : Reaches (.program q) trail' (.expr e')) {id : NodeId} (hid : e.id? = some id)
    (hid' : e'.id? = some id) : i = j ∧ trail = trail' := by
  obtain ⟨hone, hpair⟩ := List.nodup_flatMap.1 hnodup
  obtain ⟨hilt, hpi⟩ := List.getElem?_eq_some_iff.1 hi
  obtain ⟨hjlt, hqj⟩ := List.getElem?_eq_some_iff.1 hj
  have hdisjoint := List.pairwise_iff_getElem.1 hpair
  have hpid := Part.mem_ids_iff.2 ⟨trail, e, hp, hid⟩
  have hqid := Part.mem_ids_iff.2 ⟨trail', e', hq, hid'⟩
  rw [← hpi] at hpid
  rw [← hqj] at hqid
  -- Different programs have no id in common, and in one program an id has one trail.
  rcases Nat.lt_trichotomy i j with hlt | rfl | hlt
  · exact absurd hqid (hdisjoint i j hilt hjlt hlt hpid)
  · have heq : p = q := Option.some.inj (hi.symm.trans hj)
    subst heq
    exact ⟨rfl, Part.trail_eq (hone p (List.mem_of_getElem? hi)) hp hq hid hid'⟩
  · exact absurd hpid (hdisjoint j i hjlt hilt hlt hqid)

/-- Ids identify nodes for the whole session. Whatever programs a session has read and whatever
source it reads next, with or without errors, an id leads to one place in one program. The ids of a
source lie between where the session stands before it and after it. The check files a distance only
where nothing is on file, and what is on file stays as it is, whatever the session goes on with. -/
theorem node_ids_unique (h : s.Trees programs) (source : String) :
    (∀ {i j : Nat} {p q : List Stmt} {trail trail' : Trail} {e e' : Expr} {id : NodeId},
      (programs ++ [(s.parsed source).statements])[i]? = some p →
      (programs ++ [(s.parsed source).statements])[j]? = some q →
      Reaches (.program p) trail (.expr e) → Reaches (.program q) trail' (.expr e') →
      e.id? = some id → e'.id? = some id → i = j ∧ trail = trail') ∧
    (∀ {trail : Trail} {e : Expr} {id : NodeId},
      Reaches (.program (s.parsed source).statements) trail (.expr e) → e.id? = some id →
        s.nextId ≤ id ∧ id < (s.parsed source).nextId) ∧
    (∀ {fuel : Nat} {s' : Session} {t : Transcript}, s.run fuel source = some (s', t) →
      s'.nextId = (s.parsed source).nextId) ∧
    (∀ {before after : List Finding} {id : NodeId} {hops : Nat},
      check (s.parsed source).statements = before ++ .distance id hops :: after →
        (s.interpreter.distances.file before)[id]? = none) ∧
    ∀ {s' : Session} {id : NodeId} {hops : Nat}, s.Continues s' →
      s.interpreter.distances[id]? = some hops → s'.interpreter.distances[id]? = some hops := by
  obtain ⟨hunfiled, hfresh⟩ := h.fresh
  obtain ⟨hle, hnew⟩ := s.fresh_ids source
  -- The ids of the new source follow those of all programs before it.
  have hall : Fresh 0 (s.parsed source).nextId
      ((programs ++ [(s.parsed source).statements]).flatMap fun program =>
        (Part.program program).ids) := by
    rw [List.flatMap_append, List.flatMap_singleton]
    exact hfresh.append hnew (Nat.zero_le _) hle
  refine ⟨?_, ?_, ?_, ?_, ?_⟩
  · intro i j p q trail trail' e e' id hi hj hp hq hid hid'
    exact place_eq hall.nodup hi hj hp hq hid hid'
  · intro trail e id hp hid
    exact hnew.within id (Part.mem_ids_iff.2 ⟨trail, e, hp, hid⟩)
  · intro fuel s' t hrun
    exact (hunfiled.run hrun).1
  · intro before after id hops hcheck
    exact hunfiled.file hcheck
  · intro s' id hops hs hfile
    exact (hunfiled.continues hs).2 id hops hfile

/-- A source is followed by one with an error. The node in the second gets an id of its own, and the
distance of the node in the first is still on file. -/
theorem node_ids_unique_after_error :
    let first := "{ var a; a; }"
    let second := "a = nil; )"
    ∃ s s' t t' trail e id, still.run 20 first = some (s, t) ∧
      s.run 20 second = some (s', t') ∧ t'.errors ≠ [] ∧
      Reaches (.program (s.parsed second).statements) trail (.expr e) ∧ e.id? = some id ∧
      s.nextId ≤ id ∧ id < s'.nextId ∧
      s.interpreter.distances[0]? = some 0 ∧ s'.interpreter.distances[0]? = some 0 := by
  intro first second
  have hruns : ((still.run 20 first).bind fun r => (r.1.run 20 second).map fun r' =>
      (r.1.interpreter.distances[0]?, r'.2.errors.isEmpty,
        (Part.program (r.1.parsed second).statements).ids)) = some (some 0, false, [2]) := by
    decide +kernel
  obtain ⟨⟨s, t⟩, hfirst, hruns⟩ := Option.bind_eq_some_iff.1 hruns
  obtain ⟨⟨s', t'⟩, hsecond, hend⟩ := Option.map_eq_some_iff.1 hruns
  obtain ⟨hfile, hend⟩ := Prod.mk.inj hend
  obtain ⟨herrors, hids⟩ := Prod.mk.inj hend
  have hid : 2 ∈ (Part.program (s.parsed second).statements).ids := by
    rw [hids]
    exact List.mem_singleton_self 2
  obtain ⟨trail, e, hplace, he⟩ := Part.mem_ids_iff.1 hid
  have hs : s.Trees ([] ++ [(still.parsed first).statements]) :=
    .run (.new {} fun _ => 0) hfirst
  obtain ⟨-, hwithin, hnext, -, hkept⟩ := node_ids_unique hs second
  obtain ⟨hlo, hhi⟩ := hwithin hplace he
  refine ⟨s, s', t, t', trail, e, 2, hfirst, hsecond, List.isEmpty_eq_false_iff.1 herrors, hplace,
    he, hlo, ?_, hfile, hkept (.run .refl hsecond) hfile⟩
  rw [hnext hsecond]
  exact hhi

end Session

end Lox
