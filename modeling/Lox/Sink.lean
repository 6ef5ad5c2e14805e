/-!
# Where output goes

A sink collects the bytes that a program prints. It may have room for a limited number of bytes:
a text that does not fit is taken up to the limit and the rest fails. It may also fail when a
run that went well is to be completed.
-/

namespace Lox

/-- Why output fails. -/
inductive SinkFault where
  | full
  | flush
deriving DecidableEq, Repr

/-- The wording of a fault. -/
def SinkFault.message : SinkFault → String
  | full => "output limit reached"
  | flush => "flush failed"

/-- The bytes taken so far, the number of bytes that fit, and whether completing a run fails. -/
structure Sink where
  written : ByteArray := .empty
  limit : Option Nat := none
  flushFails : Bool := false

namespace Sink

/-- Takes a text as far as there is room; the fault tells that it did not fit. -/
def write (s : Sink) (text : String) : Sink × Option SinkFault :=
  let bytes := text.toUTF8
  match s.limit with
  | none => ({ s with written := s.written ++ bytes }, none)
  | some limit =>
    let room := limit - s.written.size
    if bytes.size ≤ room then ({ s with written := s.written ++ bytes }, none)
    else ({ s with written := s.written ++ bytes.extract 0 room }, some .full)

/-- Completes a run. -/
def flush (s : Sink) : Option SinkFault := if s.flushFails then some .flush else none

/-- The bytes taken since there were `start` of them. -/
def since (s : Sink) (start : Nat) : ByteArray := s.written.extract start s.written.size

end Sink

end Lox
