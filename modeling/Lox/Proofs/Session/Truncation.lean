import Lox.Proofs.Machine.Truncation
import Lox.Proofs.Session.Lookup
import Lox.Proofs.Session.Rejected

/-!
# A full sink only truncates

A source is run twice in a new session, once with a sink that takes everything and once with one
that takes only so many bytes. If everything fits, the two runs cannot be told apart. If not, the
limited run writes the first bytes of what the other writes, up to its limit, and ends with one
error, that of the sink (`Session.full_sink_truncates`).
-/

namespace Lox

open Scoping Machine

/-! ## Programs -/

namespace Interpreter

variable {i i' : Interpreter} {fuel limit : Nat} {s : Stmt} {ss : List Stmt} {signal : Signal}
  {error : Option RuntimeError}

/-- The interpreter with less room for output. -/
def cut (limit : Nat) (i : Interpreter) : Interpreter :=
  { i with world := { i.world with sink := i.world.sink.cut limit } }

theorem execute_extends (h : i.execute fuel s = some (signal, i')) :
    i.world.sink.Extends i'.world.sink := by
  obtain ⟨-, n, c, rfl, -, -, hworld⟩ := execute_eq_some h
  rw [hworld]
  exact Config.iterate_extends i.distances (i.start (.exec s)) n

theorem interpret_extends (h : i.interpret fuel ss = some (error, i')) :
    i.world.sink.Extends i'.world.sink := by
  induction ss generalizing i with
  | nil =>
    cases h
    exact .refl _
  | cons s rest ih =>
    rcases interpret_cons h with ⟨e, j, hexec, heq⟩ | ⟨signal, j, hexec, -, hrest⟩
    · cases heq
      exact execute_extends hexec
    · exact (execute_extends hexec).trans (ih hrest)

theorem execute_cut (hlimit : i.world.sink.limit = none)
    (h : i.execute fuel s = some (signal, i')) (hroom : i'.world.sink.written.size ≤ limit) :
    (i.cut limit).execute fuel s = some (signal, i'.cut limit) := by
  obtain ⟨⟨t, c⟩, hrun, heq⟩ := Option.map_eq_some_iff.1 h
  cases heq
  have hcut := Config.run_cut (c := i.start (.exec s)) hlimit hrun hroom
  exact Option.map_eq_some_iff.2 ⟨_, hcut, rfl⟩

theorem execute_cut_full (hlimit : i.world.sink.limit = none)
    (hroom : i.world.sink.written.size ≤ limit) (h : i.execute fuel s = some (signal, i'))
    (hfull : limit < i'.world.sink.written.size) :
    ∃ j, (i.cut limit).execute fuel s = some (.raised (.sink .full), j) ∧
      j.world.sink = i'.world.sink.cut limit := by
  obtain ⟨⟨t, c⟩, hrun, heq⟩ := Option.map_eq_some_iff.1 h
  cases heq
  obtain ⟨e, hcut, hsink⟩ :=
    Config.run_cut_full (c := i.start (.exec s)) hlimit hroom hrun hfull
  exact ⟨_, Option.map_eq_some_iff.2 ⟨_, hcut, rfl⟩, hsink⟩

/-- With room for all output, a program runs as before. -/
theorem interpret_cut (hlimit : i.world.sink.limit = none)
    (h : i.interpret fuel ss = some (error, i')) (hroom : i'.world.sink.written.size ≤ limit) :
    (i.cut limit).interpret fuel ss = some (error, i'.cut limit) := by
  induction ss generalizing i with
  | nil =>
    cases h
    rfl
  | cons s rest ih =>
    rcases interpret_cons h with ⟨e, j, hexec, heq⟩ | ⟨signal, j, hexec, hne, hrest⟩
    · cases heq
      exact interpret_raised (execute_cut hlimit hexec hroom)
    -- What is written only grows, so the output so far fits if all of it does.
    · have hj := (interpret_extends hrest).size_le.trans hroom
      rw [interpret_next (execute_cut hlimit hexec hj) hne]
      exact ih ((execute_extends hexec).limit.trans hlimit) hrest

/-- Without this room, a program ends with the error of the sink. -/
theorem interpret_cut_full (hlimit : i.world.sink.limit = none)
    (hroom : i.world.sink.written.size ≤ limit) (h : i.interpret fuel ss = some (error, i'))
    (hfull : limit < i'.world.sink.written.size) :
    ∃ j, (i.cut limit).interpret fuel ss = some (some (.sink .full), j) ∧
      j.world.sink = i'.world.sink.cut limit := by
  induction ss generalizing i with
  | nil =>
    cases h
    exact absurd hroom (Nat.not_le.2 hfull)
  | cons s rest ih =>
    rcases interpret_cons h with ⟨e, j, hexec, heq⟩ | ⟨signal, j, hexec, hne, hrest⟩
    · cases heq
      obtain ⟨k, hcut, hsink⟩ := execute_cut_full hlimit hroom hexec hfull
      exact ⟨k, interpret_raised hcut, hsink⟩
    · by_cases hj : j.world.sink.written.size ≤ limit
      · -- What this statement writes still fits.
        rw [interpret_next (execute_cut hlimit hexec hj) hne]
        exact ih ((execute_extends hexec).limit.trans hlimit) hj hrest
      · have hj := Nat.not_le.1 hj
        obtain ⟨k, hcut, hsink⟩ := execute_cut_full hlimit hroom hexec hj
        refine ⟨k, interpret_raised hcut, ?_⟩
        -- The other run goes on, but writes beyond the limit only.
        rw [hsink, (interpret_extends hrest).cut_eq (Nat.le_of_lt hj)]

end Interpreter

/-! ## Sessions -/

namespace Session

variable {s s' : Session} {fuel limit : Nat} {source : String} {t : Transcript}

/-- The session with less room for output. -/
def cut (limit : Nat) (s : Session) : Session :=
  { s with interpreter := s.interpreter.cut limit }

/-- The bytes that a session has written. -/
def written (s : Session) : ByteArray := s.interpreter.world.sink.written

theorem new_cut (limit : Nat) (clock : Nat → Float) :
    (new {} clock).cut limit = new { limit := some limit } clock := by
  have hsink : Sink.cut limit {} = { limit := some limit } := Sink.cut_of_room (Nat.zero_le _)
  simp only [cut, Interpreter.cut, new, Interpreter.new, hsink]

theorem checks_cut : (s.cut limit).Checks source ↔ s.Checks source := Iff.rfl

theorem accepts_cut : (s.cut limit).Accepts source ↔ s.Accepts source := Iff.rfl

/-- A source that is not run writes nothing, with whatever room. -/
theorem run_cut_of_not_accepts (ha : ¬s.Accepts source) (h : s.run fuel source = some (s', t)) :
    (s.cut limit).run fuel source = some (s'.cut limit, t) ∧ s'.written = s.written := by
  by_cases hc : s.Checks source
  · have ho : offences (check (s.parsed source).statements) ≠ [] := fun ho => ha ⟨hc, ho⟩
    rw [run_of_checks hc, if_neg ho] at h
    rw [run_of_checks (checks_cut.2 hc)]
    cases h
    exact ⟨if_neg ho, rfl⟩
  · rw [run_of_syntaxErrors hc] at h
    rw [run_of_syntaxErrors (mt checks_cut.1 hc)]
    cases h
    exact ⟨rfl, rfl⟩

theorem run_cut (hlimit : s.interpreter.world.sink.limit = none)
    (h : s.run fuel source = some (s', t)) (hroom : s'.written.size ≤ limit) :
    (s.cut limit).run fuel source = some (s'.cut limit, t) := by
  by_cases ha : s.Accepts source
  · obtain ⟨error, i, hi, rfl, rfl⟩ := ha.run_eq_some h
    have hcut := Interpreter.interpret_cut (i := s.loaded source) hlimit hi hroom
    rw [run_of_accepts (accepts_cut.2 ha)]
    exact Option.map_eq_some_iff.2 ⟨_, hcut, rfl⟩
  · exact (run_cut_of_not_accepts ha h).1

theorem run_cut_full (hlimit : s.interpreter.world.sink.limit = none)
    (hroom : s.written.size ≤ limit) (h : s.run fuel source = some (s', t))
    (hfull : limit < s'.written.size) :
    ∃ r, (s.cut limit).run fuel source = some (r, ⟨[], some (.sink .full)⟩) ∧
      r.written = s'.written.extract 0 limit ∧ r.hadError = false ∧
      r.hadRuntimeError = true := by
  by_cases ha : s.Accepts source
  · obtain ⟨error, i, hi, rfl, rfl⟩ := ha.run_eq_some h
    obtain ⟨j, hcut, hsink⟩ :=
      Interpreter.interpret_cut_full (i := s.loaded source) hlimit hroom hi hfull
    rw [run_of_accepts (accepts_cut.2 ha)]
    exact ⟨_, Option.map_eq_some_iff.2 ⟨_, hcut, rfl⟩, congrArg Sink.written hsink, rfl,
      Bool.or_true _⟩
  · obtain ⟨-, hsame⟩ : (s.cut limit).run fuel source = some (s'.cut limit, t) ∧
        s'.written = s.written := run_cut_of_not_accepts ha h
    -- The source is not run, so nothing is written, and there was room for what is there.
    rw [hsame] at hfull
    exact absurd hroom (Nat.not_le.2 hfull)

/-- A full sink only truncates. Take a source whose run in a new session ends, with a sink that
takes everything, and run it again with a sink that takes so many bytes and no more; the clock gives
the same readings. If all output fits, the second run gives the same output, errors and flags. If
not, its output is the first bytes of the other, as many as fit, and it ends with one error, that of
the sink, whatever else the first run came to. -/
theorem full_sink_truncates {clock : Nat → Float}
    (h : (new {} clock).run fuel source = some (s, t)) (limit : Nat) :
    (s.written.size ≤ limit →
      ∃ r, (new { limit := some limit } clock).run fuel source = some (r, t) ∧
        r.written = s.written ∧ r.hadError = s.hadError ∧
        r.hadRuntimeError = s.hadRuntimeError) ∧
    (limit < s.written.size →
      ∃ r, (new { limit := some limit } clock).run fuel source =
          some (r, ⟨[], some (.sink .full)⟩) ∧
        r.written = s.written.extract 0 limit ∧ r.hadError = false ∧
        r.hadRuntimeError = true) := by
  rw [← new_cut]
  constructor
  · intro hroom
    exact ⟨s.cut limit, run_cut rfl h hroom, Sink.extract_of_room hroom, rfl, rfl⟩
  · intro hfull
    exact run_cut_full rfl (Nat.zero_le _) h hfull

/-- A call prints before it is printed what it gives, and then there is an error. With room for
three bytes of four, the second print is cut off within its line. -/
theorem full_sink_truncates_print :
    let source := "fun f() { print 1; return 2; } print f(); nil();"
    ∃ s t, still.run 60 source = some (s, t) ∧ s.written.size = 4 ∧
      (∃ r, (new { limit := some 4 } fun _ => 0).run 60 source = some (r, t) ∧
        r.written = s.written) ∧
      ∃ r, (new { limit := some 3 } fun _ => 0).run 60 source =
          some (r, ⟨[], some (.sink .full)⟩) ∧
        r.written = "1\n2".toUTF8 := by
  intro source
  have hrun : (still.run 60 source).map (fun r => r.1.written) = some "1\n2\n".toUTF8 := by
    decide +kernel
  obtain ⟨⟨s, t⟩, h, hbytes⟩ := Option.map_eq_some_iff.1 hrun
  have hsize : s.written.size = 4 := by rw [hbytes]; rfl
  refine ⟨s, t, h, hsize, ?_, ?_⟩
  · obtain ⟨r, hr, hsame, -⟩ := (full_sink_truncates h 4).1 (by rw [hsize])
    exact ⟨r, hr, hsame⟩
  · obtain ⟨r, hr, hfirst, -⟩ := (full_sink_truncates h 3).2 (by rw [hsize]; decide)
    refine ⟨r, hr, ?_⟩
    rw [hfirst, hbytes]
    rfl

end Session

end Lox
