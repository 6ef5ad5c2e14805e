import Lox.Proofs.Machine.Calls

/-!
# Runs with less room for output

The same work is done twice, once with a sink without a limit and once with a sink that takes only
so many bytes. Up to the first print that does not fit, the two runs go in lockstep
(`Config.step_cut`): only a print looks at the sink. Then the limited run has an error, which no
frame stops: it takes one frame off the stack with each step and changes nothing
(`Config.iterate_raised`). As no step takes off more than one frame, the unlimited run has at least
as many steps left as the limited one needs.

Main statements: `Config.run_cut`, `Config.run_cut_full`.
-/

namespace Lox

/-! ## Sinks -/

namespace Sink

variable {s s' s'' : Sink} {limit : Nat}

/-- The sink with room for so many bytes, and of what it has taken only those that fit. -/
def cut (limit : Nat) (s : Sink) : Sink :=
  { s with written := s.written.extract 0 limit, limit := some limit }

/-- The other sink has taken some more bytes. -/
structure Extends (s s' : Sink) : Prop where
  limit : s'.limit = s.limit
  flushFails : s'.flushFails = s.flushFails
  written : ∃ more, s'.written = s.written ++ more

theorem Extends.refl (s : Sink) : s.Extends s := ⟨rfl, rfl, .empty, ByteArray.append_empty.symm⟩

theorem Extends.trans (h : s.Extends s') (h' : s'.Extends s'') : s.Extends s'' := by
  obtain ⟨more, hmore⟩ := h.written
  obtain ⟨more', hmore'⟩ := h'.written
  refine ⟨h'.limit.trans h.limit, h'.flushFails.trans h.flushFails, more ++ more', ?_⟩
  rw [hmore', hmore, ByteArray.append_assoc]

theorem Extends.size_le (h : s.Extends s') : s.written.size ≤ s'.written.size := by
  obtain ⟨more, hmore⟩ := h.written
  rw [hmore, ByteArray.size_append]
  exact Nat.le_add_right _ _

/-- Bytes beyond the limit make no difference. -/
theorem Extends.cut_eq (h : s.Extends s') (hfull : limit ≤ s.written.size) :
    s'.cut limit = s.cut limit := by
  obtain ⟨more, hmore⟩ := h.written
  have hempty : more.extract (0 - s.written.size) (limit - s.written.size) = .empty := by
    rw [Nat.zero_sub, Nat.sub_eq_zero_of_le hfull, ByteArray.extract_same]
  simp only [cut, h.flushFails, hmore, ByteArray.extract_append, hempty, ByteArray.append_empty]

theorem write_extends (s : Sink) (text : String) : s.Extends (s.write text).1 := by
  unfold write
  dsimp only
  split
  · exact ⟨rfl, rfl, _, rfl⟩
  · split
    · exact ⟨rfl, rfl, _, rfl⟩
    · exact ⟨rfl, rfl, _, rfl⟩

theorem extract_of_room (h : s.written.size ≤ limit) : s.written.extract 0 limit = s.written := by
  apply ByteArray.ext
  rw [ByteArray.data_extract]
  exact Array.extract_eq_self_of_le h

theorem cut_of_room (h : s.written.size ≤ limit) :
    s.cut limit = { s with limit := some limit } := by
  rw [cut, extract_of_room h]

theorem write_unlimited (h : s.limit = none) (text : String) :
    s.write text = ({ s with written := s.written ++ text.toUTF8 }, none) := by
  unfold write
  rw [h]

/-- A text that does not fit is taken up to the limit. -/
theorem write_cut (hlimit : s.limit = none) (hroom : s.written.size ≤ limit) (text : String) :
    (s.cut limit).write text = ((s.write text).1.cut limit,
      if (s.write text).1.written.size ≤ limit then none else some .full) := by
  rw [cut_of_room hroom, write_unlimited hlimit]
  simp only [write, cut, ByteArray.extract_append, ByteArray.size_append, extract_of_room hroom,
    Nat.zero_sub]
  -- The text fits into the room that is left, or else the limit is exceeded.
  by_cases hfits : text.toUTF8.size ≤ limit - s.written.size
  · have hsize : s.written.size + text.toUTF8.size ≤ limit := by omega
    have hall : text.toUTF8.extract 0 (limit - s.written.size) = text.toUTF8 :=
      extract_of_room (s := { written := text.toUTF8 }) hfits
    rw [if_pos hfits, if_pos hsize, hall]
  · have hsize : ¬s.written.size + text.toUTF8.size ≤ limit := by omega
    rw [if_neg hfits, if_neg hsize]

end Sink

namespace Machine

variable {c c' : Config} {d : Scoping.Distances} {s : Signal} {limit n fuel : Nat}

namespace Config

/-! ## Steps -/

/-- The configuration with less room for output. -/
def cut (limit : Nat) (c : Config) : Config :=
  { c with world := { c.world with sink := c.world.sink.cut limit } }

theorem cut_eq_amid (limit : Nat) (c : Config) : c.cut limit = c.amid [] (Sink.cut limit) := by
  rw [cut, amid, List.append_nil]

theorem result?_cut (limit : Nat) (c : Config) : (c.cut limit).result? = c.result? := rfl

/-- Only a print writes. -/
theorem sink_step_of_not_prints (hprint : c.printed? = none) :
    (step d c).world.sink = c.world.sink := by
  cases hres : c.result? with
  | some s => rw [step_of_result? hres]
  | none =>
    -- With its own sink put in once more, the configuration is the same.
    have hself : c.amid [] (fun _ => c.world.sink) = c := by
      simp only [amid, List.append_nil]
    have hstep : step d (c.amid [] fun _ => c.world.sink) =
        (step d c).amid [] fun _ => c.world.sink := step_amid hres hprint
    rw [hself] at hstep
    rw [hstep]
    rfl

theorem sink_print (c : Config) (v : Value) :
    (c.print v).world.sink = (c.world.sink.write (v.shown ++ "\n")).1 := by
  obtain ⟨control, env, stack, ⟨heap, sink, clock⟩⟩ := c
  simp only [Config.print, Config.write]
  generalize sink.write (v.shown ++ "\n") = written
  obtain ⟨sink', fault⟩ := written
  cases fault <;> rfl

theorem step_extends (d : Scoping.Distances) (c : Config) :
    c.world.sink.Extends (step d c).world.sink := by
  cases hprint : c.printed? with
  | none =>
    rw [sink_step_of_not_prints hprint]
    exact .refl _
  | some v =>
    obtain ⟨rest, -, hstep⟩ := step_printed (d := d) hprint
    rw [hstep, sink_print]
    exact Sink.write_extends _ _

theorem iterate_extends (d : Scoping.Distances) (c : Config) (n : Nat) :
    c.world.sink.Extends ((step d)^[n] c).world.sink := by
  induction n generalizing c with
  | zero => exact .refl _
  | succ n ih => exact (step_extends d c).trans (ih (step d c))

theorem print_cut (hlimit : c.world.sink.limit = none)
    (hroom : c.world.sink.written.size ≤ limit) (v : Value) :
    (c.cut limit).print v =
      if (c.print v).world.sink.written.size ≤ limit then (c.print v).cut limit
      else ((c.print v).cut limit).signal (.raised (.sink .full)) := by
  rw [sink_print]
  obtain ⟨control, env, stack, ⟨heap, sink, clock⟩⟩ := c
  have hwrite := Sink.write_cut hlimit hroom (v.shown ++ "\n")
  by_cases hfits : (sink.write (v.shown ++ "\n")).1.written.size ≤ limit
  · rw [if_pos hfits] at hwrite ⊢
    simp only [cut, Config.print, Config.write, hwrite, Sink.write_unlimited hlimit]
    rfl
  · rw [if_neg hfits] at hwrite ⊢
    simp only [cut, Config.print, Config.write, hwrite, Sink.write_unlimited hlimit]
    rfl

/-- The two runs go in lockstep up to the first print that does not fit. -/
theorem step_cut (hlimit : c.world.sink.limit = none)
    (hroom : c.world.sink.written.size ≤ limit) :
    step d (c.cut limit) =
      if (step d c).world.sink.written.size ≤ limit then (step d c).cut limit
      else ((step d c).cut limit).signal (.raised (.sink .full)) := by
  cases hres : c.result? with
  | some s =>
    rw [step_of_result? hres, if_pos hroom, step_of_result? ((result?_cut limit c).trans hres)]
  | none =>
    cases hprint : c.printed? with
    | none =>
      rw [sink_step_of_not_prints hprint, if_pos hroom, cut_eq_amid, cut_eq_amid]
      exact step_amid hres hprint
    | some v =>
      obtain ⟨rest, hstack, hstep⟩ := step_printed (d := d) hprint
      obtain ⟨rest', hstack', hstep'⟩ := step_printed (c := c.cut limit) (d := d) hprint
      obtain rfl : rest = rest' := List.tail_eq_of_cons_eq (hstack.symm.trans hstack')
      rw [hstep, hstep']
      exact print_cut (c := { c with stack := rest }) hlimit hroom v

/-! ## The way of an error -/

/-- No frame stops an error; at most an environment is restored. -/
theorem resume_raised (c : Config) (e : RuntimeError) (f : Frame) :
    ∃ env, c.resume d (.raised e) f = { c with control := .signal (.raised e), env } := by
  cases f <;> exact ⟨_, rfl⟩

/-- An error takes one frame off the stack with each step, and nothing else happens. -/
theorem iterate_raised (c : Config) (e : RuntimeError) :
    ∃ env, (step d)^[c.stack.length] (c.signal (.raised e)) =
      ⟨.signal (.raised e), env, [], c.world⟩ := by
  obtain ⟨control, env, stack, world⟩ := c
  induction stack generalizing control env with
  | nil => exact ⟨env, rfl⟩
  | cons f rest ih =>
    obtain ⟨env', hresume⟩ := resume_raised (d := d) ⟨.signal (.raised e), env, rest, world⟩ e f
    obtain ⟨env'', hrest⟩ := ih (.signal (.raised e)) env'
    refine ⟨env'', ?_⟩
    rw [← hrest]
    exact congrArg ((step d)^[rest.length]) hresume

/-- A step takes at most one frame off the stack. -/
theorem length_le_step (d : Scoping.Distances) (c : Config) :
    c.stack.length ≤ (step d c).stack.length + 1 := by
  let top : Config := { c with stack := c.stack.take 1 }
  have hsplit : c = top.onto (c.stack.drop 1) := by
    obtain ⟨control, env, stack, world⟩ := c
    simp only [top, onto, List.take_append_drop]
  -- Only the topmost frame has a part in the step, so the others stay.
  cases hres : top.result? with
  | none =>
    have hstep : step d (top.onto (c.stack.drop 1)) = (step d top).onto (c.stack.drop 1) :=
      step_onto hres
    rw [← hsplit] at hstep
    rw [hstep, onto, List.length_append, List.length_drop]
    omega
  | some s =>
    have hempty : c.stack.take 1 = [] := (result?_eq_some.1 hres).2
    have hlength := congrArg List.length hempty
    rw [List.length_take, List.length_nil] at hlength
    omega

/-- So a run has at least as many steps left as there are frames. -/
theorem length_le_of_ended (hres : ((step d)^[n] c).result? = some s) : c.stack.length ≤ n := by
  induction n generalizing c with
  | zero =>
    have hempty : c.stack = [] := (result?_eq_some.1 hres).2
    exact Nat.le_of_eq (congrArg List.length hempty)
  | succ n ih => exact Nat.le_trans (length_le_step d c) (Nat.succ_le_succ (ih hres))

/-! ## Runs -/

/-- With room for all that a run writes, it goes the same way. -/
theorem iterate_cut (hlimit : c.world.sink.limit = none)
    (hroom : ((step d)^[n] c).world.sink.written.size ≤ limit) :
    (step d)^[n] (c.cut limit) = ((step d)^[n] c).cut limit := by
  induction n generalizing c with
  | zero => rfl
  | succ n ih =>
    rw [Function.iterate_succ_apply] at hroom ⊢
    have hnext := Nat.le_trans (iterate_extends d (step d c) n).size_le hroom
    have hfirst := Nat.le_trans (step_extends d c).size_le hnext
    rw [step_cut hlimit hfirst, if_pos hnext]
    exact ih ((step_extends d c).limit.trans hlimit) hroom

/-- Without this room, the run ends with the error of the sink, which has taken what fits. -/
theorem iterate_cut_full (hlimit : c.world.sink.limit = none)
    (hroom : c.world.sink.written.size ≤ limit) (hres : ((step d)^[n] c).result? = some s)
    (hfull : limit < ((step d)^[n] c).world.sink.written.size) :
    ∃ m ≤ n, ((step d)^[m] (c.cut limit)).result? = some (.raised (.sink .full)) ∧
      ((step d)^[m] (c.cut limit)).world.sink =
        ((step d)^[n] c).world.sink.cut limit := by
  induction n generalizing c with
  | zero => exact absurd hroom (Nat.not_le.2 hfull)
  | succ n ih =>
    rw [Function.iterate_succ_apply] at hres hfull ⊢
    by_cases hnext : (step d c).world.sink.written.size ≤ limit
    · obtain ⟨m, hm, hend⟩ := ih ((step_extends d c).limit.trans hlimit) hnext hres hfull
      refine ⟨m + 1, Nat.succ_le_succ hm, ?_⟩
      rw [Function.iterate_succ_apply, step_cut hlimit hroom, if_pos hnext]
      exact hend
    -- This print does not fit. Its error needs a step for each frame, and as many are left.
    · have hlength := length_le_of_ended hres
      obtain ⟨env, hend⟩ := iterate_raised (d := d) ((step d c).cut limit) (.sink .full)
      refine ⟨((step d c).cut limit).stack.length + 1, Nat.succ_le_succ ?_, ?_⟩
      · exact hlength
      · rw [Function.iterate_succ_apply, step_cut hlimit hroom, if_neg hnext, hend]
        refine ⟨rfl, ?_⟩
        have hextends := iterate_extends d (step d c) n
        rw [hextends.cut_eq (Nat.le_of_lt (Nat.not_le.1 hnext))]
        rfl

theorem run_cut (hlimit : c.world.sink.limit = none) (hrun : run d fuel c = some (s, c'))
    (hroom : c'.world.sink.written.size ≤ limit) :
    run d fuel (c.cut limit) = some (s, c'.cut limit) := by
  obtain ⟨n, hn, rfl, hres⟩ := run_eq_some_iff.1 hrun
  exact run_eq_some_iff.2 ⟨n, hn, iterate_cut hlimit hroom, (result?_cut limit _).trans hres⟩

theorem run_cut_full (hlimit : c.world.sink.limit = none)
    (hroom : c.world.sink.written.size ≤ limit) (hrun : run d fuel c = some (s, c'))
    (hfull : limit < c'.world.sink.written.size) :
    ∃ e, run d fuel (c.cut limit) = some (.raised (.sink .full), e) ∧
      e.world.sink = c'.world.sink.cut limit := by
  obtain ⟨n, hn, rfl, hres⟩ := run_eq_some_iff.1 hrun
  obtain ⟨m, hm, hend, hsink⟩ := iterate_cut_full hlimit hroom hres hfull
  exact ⟨_, run_eq_some_iff.2 ⟨m, Nat.le_trans hm hn, rfl, hend⟩, hsink⟩

end Config

end Machine

end Lox
