import Lox.Token.Lexer

/-!
# The scanner

The scanner reads a source byte by byte. `start` is the offset of the first byte of the lexeme at
hand, `curr` that of the byte that is read next, and `line` goes up with every newline that is read.
The text of a lexeme, and of a string, is the slice of the source between two offsets.

A byte past the end cannot be read, and a text cannot be sliced off a boundary between characters: a
step that tries has no result. That no step does is proved of the scanner, not put into it.

A byte is looked up as the character with its code. The bytes of the characters beyond ASCII are in
none of the classes.
-/

namespace Lox

/-- A scanner within a source. -/
structure Scanner where
  src : String
  start : Nat
  curr : Nat
  line : Nat
  pending : Option (Kind × Option Literal)

namespace Scanner

open Lexer

/-- A scanner at the start of a source. -/
def new (src : String) : Scanner := ⟨src, 0, 0, 1, none⟩

/-- How a lexeme ended, and the scanner after it. -/
abbrev Step := Option (Except LexicalError Unit × Scanner)

/-! ## Bytes and slices -/

/-- The number of bytes of the source. -/
def len (s : Scanner) : Nat := s.src.utf8ByteSize

/-- The byte at an offset. -/
def byte? (s : Scanner) (i : Nat) : Option UInt8 :=
  if h : i < s.src.utf8ByteSize then some (s.src.getUTF8Byte ⟨i⟩ h) else none

/-- The text from one offset to another. Both have to be boundaries between characters. -/
def slice? (s : Scanner) (i j : Nat) : Option String.Slice :=
  if h : String.Pos.Raw.IsValid s.src ⟨i⟩ ∧ String.Pos.Raw.IsValid s.src ⟨j⟩ ∧ i ≤ j then
    some (s.src.slice ⟨⟨i⟩, h.1⟩ ⟨⟨j⟩, h.2.1⟩ h.2.2)
  else none

/-- Is all of the source read? -/
def isAtEnd (s : Scanner) : Bool := s.len ≤ s.curr

/-- Reads a byte. -/
def advance (s : Scanner) : Option (UInt8 × Scanner) :=
  (s.byte? s.curr).map fun b => (b, { s with curr := s.curr + 1 })

/-- The next byte, and 0 at the end. -/
def peek (s : Scanner) : UInt8 := (s.byte? s.curr).getD 0

/-- The byte after the next one, and 0 past the end. -/
def peekNext (s : Scanner) : UInt8 := (s.byte? (s.curr + 1)).getD 0

/-- Reads a byte if it is the expected one. -/
def matchByte (s : Scanner) (expected : Char) : Option (Bool × Scanner) :=
  if !s.isAtEnd && Char.ofUInt8 s.peek = expected then
    s.advance.map fun (_, s) => (true, s)
  else some (false, s)

/-- The first offset from `i` on where the byte stands. -/
def find? (s : Scanner) (c : Char) (i : Nat) : Option Nat :=
  match _h : s.byte? i with
  | none => none
  | some b => if Char.ofUInt8 b = c then some i else find? s c (i + 1)
termination_by s.len - i
decreasing_by
  unfold byte? at _h
  split at _h
  · next hlt => unfold len; omega
  · cases _h

/-- A lexeme has been recognised. -/
def emit (s : Scanner) (kind : Kind) (literal : Option Literal) : Scanner :=
  { s with pending := some (kind, literal) }

/-! ## How far a step goes -/

/-- The scanner has gone on in the same source and the same lexeme. -/
structure Ahead (s s' : Scanner) : Prop where
  src : s'.src = s.src
  start : s'.start = s.start
  curr : s.curr ≤ s'.curr

namespace Ahead

variable {s s' s'' : Scanner}

theorem rfl : Ahead s s := ⟨.refl _, .refl _, Nat.le_refl _⟩

theorem trans (h : Ahead s s') (h' : Ahead s' s'') : Ahead s s'' :=
  ⟨h'.src.trans h.src, h'.start.trans h.start, Nat.le_trans h.curr h'.curr⟩

theorem emit (kind : Kind) (literal : Option Literal) : Ahead s (s.emit kind literal) :=
  ⟨.refl _, .refl _, Nat.le_refl _⟩

end Ahead

variable {s s' : Scanner}

theorem advance_eq_some {b : UInt8} (h : s.advance = some (b, s')) :
    s.curr < s.len ∧ s' = { s with curr := s.curr + 1 } := by
  unfold advance byte? at h
  split at h
  · next hlt => exact ⟨hlt, (congrArg Prod.snd (Option.some.inj h)).symm⟩
  · cases h

theorem ahead_of_advance {b : UInt8} (h : s.advance = some (b, s')) : Ahead s s' := by
  obtain ⟨-, rfl⟩ := advance_eq_some h
  exact ⟨.refl _, .refl _, Nat.le_succ _⟩

theorem len_sub_lt_of_advance {b : UInt8} (h : s.advance = some (b, s')) :
    s'.len - s'.curr < s.len - s.curr := by
  obtain ⟨hlt, rfl⟩ := advance_eq_some h
  exact Nat.sub_succ_lt_self _ _ hlt

/-! ## Loops over bytes -/

/-- Reads on while the next byte is in a class. -/
def advanceWhile (p : Char → Bool) (s : Scanner) : Option Scanner :=
  if p (Char.ofUInt8 s.peek) then
    match _h : s.advance with
    | none => none
    | some (_, s') => advanceWhile p s'
  else some s
termination_by s.len - s.curr
decreasing_by exact len_sub_lt_of_advance _h

/-- Reads up to the next quote, or to the end, and counts the newlines on the way. -/
def advanceString (s : Scanner) : Option Scanner :=
  if !s.isAtEnd && Char.ofUInt8 s.peek != '"' then
    match _h : s.advance with
    | none => none
    | some (b, s') =>
      if Char.ofUInt8 b = '\n' then advanceString { s' with line := s'.line + 1 }
      else advanceString s'
  else some s
termination_by s.len - s.curr
decreasing_by
  all_goals
    have hlt := len_sub_lt_of_advance _h
    exact hlt

/-- Goes to the next newline, or to the end. The newline itself is read with the next lexeme. -/
def skipLine (s : Scanner) : Option Scanner :=
  if s.curr ≤ s.len then
    match s.find? '\n' s.curr with
    | some i => some { s with curr := i }
    | none => some { s with curr := s.len }
  else none

theorem ahead_of_matchByte {c : Char} {found : Bool} (h : s.matchByte c = some (found, s')) :
    Ahead s s' := by
  unfold matchByte at h
  split at h
  · obtain ⟨⟨b, s''⟩, hadvance, heq⟩ := Option.map_eq_some_iff.1 h
    cases heq
    exact ahead_of_advance hadvance
  · cases h
    exact .rfl

theorem ahead_of_advanceWhile {p : Char → Bool} (h : s.advanceWhile p = some s') :
    Ahead s s' := by
  fun_induction advanceWhile p s with
  | case1 => cases h
  | case2 s hp b s'' hadvance ih => exact (ahead_of_advance hadvance).trans (ih h)
  | case3 => cases h; exact .rfl

theorem ahead_of_advanceString (h : s.advanceString = some s') : Ahead s s' := by
  fun_induction advanceString s with
  | case1 => cases h
  | case2 s hp b s'' hadvance hline ih =>
    have hahead := ih h
    exact (ahead_of_advance hadvance).trans ⟨hahead.src, hahead.start, hahead.curr⟩
  | case3 s hp b s'' hadvance hline ih => exact (ahead_of_advance hadvance).trans (ih h)
  | case4 => cases h; exact .rfl

theorem le_of_find? {c : Char} {i j : Nat} (h : s.find? c i = some j) : i ≤ j := by
  fun_induction find? s c i with
  | case1 => cases h
  | case2 => cases h; exact Nat.le_refl _
  | case3 i b hb hne ih => exact Nat.le_of_succ_le (ih h)

theorem ahead_of_skipLine (h : s.skipLine = some s') : Ahead s s' := by
  unfold skipLine at h
  split at h
  · next hle =>
    split at h <;> cases h
    · next hfind => exact ⟨.refl _, .refl _, le_of_find? hfind⟩
    · exact ⟨.refl _, .refl _, hle⟩
  · cases h

/-! ## Lexemes -/

/-- What starts with a character that `=` may extend. -/
def operator (s : Scanner) (alone joined : Kind) : Step := do
  let (found, s) ← s.matchByte '='
  return (.ok (), s.emit (if found then joined else alone) none)

/-- What starts with a slash: a comment or the operator. -/
def slash (s : Scanner) : Step := do
  let (found, s) ← s.matchByte '/'
  if found then
    let s ← s.skipLine
    return (.ok (), s)
  else return (.ok (), s.emit .slash none)

/-- The string whose opening quote has been read. -/
def string (s : Scanner) : Step := do
  let s ← s.advanceString
  if s.isAtEnd then return (.error ⟨s.line, .unterminatedString⟩, s)
  else
    let (_, s) ← s.advance
    let body ← s.slice? (s.start + 1) (s.curr - 1)
    return (.ok (), s.emit .string (some (.text body.copy)))

/-- A point and the digits after it, if a digit follows the point. -/
def fraction (s : Scanner) : Option Scanner :=
  if Char.ofUInt8 s.peek = '.' && (Char.ofUInt8 s.peekNext).isDigit then do
    let (_, s) ← s.advance
    s.advanceWhile Char.isDigit
  else some s

/-- The number whose first digit has been read. -/
def number (s : Scanner) : Step := do
  let s ← s.advanceWhile Char.isDigit
  let s ← s.fraction
  let text ← s.slice? s.start s.curr
  match decimal? text.copy.toList with
  | some value => return (.ok (), s.emit .number (some (.number value)))
  | none => return (.error ⟨s.line, .invalidNumber text.copy⟩, s)

/-- The word whose first letter has been read. -/
def word (s : Scanner) : Step := do
  let s ← s.advanceWhile inWord
  let text ← s.slice? s.start s.curr
  return (.ok (), s.emit (Kind.ofWord text.copy) none)

/-- A character that starts nothing. All of its bytes are skipped, so that the next lexeme starts at
a boundary again. -/
def unexpected (s : Scanner) : Step := do
  let rest ← s.slice? s.start s.len
  let c := rest.front?.getD '\uFFFD'
  return (.error ⟨s.line, .unexpected c⟩, { s with curr := s.start + c.utf8Size })

/-- What starts with a byte that has been read. Only a lexeme leaves something pending. -/
def lexeme (c : Char) (s : Scanner) : Step :=
  match punctuator? c, operator? c with
  | some kind, _ => some (.ok (), s.emit kind none)
  | none, some (alone, joined) => s.operator alone joined
  | none, none =>
    if c = ' ' || c = '\r' || c = '\t' then some (.ok (), s)
    else if c = '\n' then some (.ok (), { s with line := s.line + 1 })
    else if c = '/' then s.slash
    else if c = '"' then s.string
    else if c.isDigit then s.number
    else if startsWord c then s.word
    else s.unexpected

/-- Reads one lexeme, one blank or one comment. -/
def scanToken (s : Scanner) : Step := do
  let (b, s) ← s.advance
  s.lexeme (Char.ofUInt8 b)

/-- A step of the scanner within a source and a lexeme. -/
def Step.Ahead (s : Scanner) (r : Step) : Prop := ∀ x s', r = some (x, s') → s.Ahead s'

theorem ahead_operator (alone joined : Kind) : (s.operator alone joined).Ahead s := by
  intro x s' h
  obtain ⟨⟨found, s₁⟩, hmatch, h⟩ := Option.bind_eq_some_iff.1 h
  cases h
  exact (ahead_of_matchByte hmatch).trans (.emit _ _)

theorem ahead_slash : s.slash.Ahead s := by
  intro x s' h
  obtain ⟨⟨found, s₁⟩, hmatch, h⟩ := Option.bind_eq_some_iff.1 h
  have hahead := ahead_of_matchByte hmatch
  cases found with
  | true =>
    obtain ⟨s₂, hskip, h⟩ := Option.bind_eq_some_iff.1 h
    cases h
    exact hahead.trans (ahead_of_skipLine hskip)
  | false =>
    cases h
    exact hahead.trans (.emit _ _)

theorem ahead_string : s.string.Ahead s := by
  intro x s' h
  obtain ⟨s₁, hbody, h⟩ := Option.bind_eq_some_iff.1 h
  have hahead := ahead_of_advanceString hbody
  split at h
  · cases h
    exact hahead
  · obtain ⟨⟨b, s₂⟩, hadvance, h⟩ := Option.bind_eq_some_iff.1 h
    obtain ⟨body, -, h⟩ := Option.bind_eq_some_iff.1 h
    cases h
    exact (hahead.trans (ahead_of_advance hadvance)).trans (.emit _ _)

theorem ahead_of_fraction (h : s.fraction = some s') : Ahead s s' := by
  unfold fraction at h
  split at h
  · obtain ⟨⟨b, s₁⟩, hadvance, h⟩ := Option.bind_eq_some_iff.1 h
    exact (ahead_of_advance hadvance).trans (ahead_of_advanceWhile h)
  · cases h
    exact .rfl

theorem ahead_number : s.number.Ahead s := by
  intro x s' h
  obtain ⟨s₁, hdigits, h⟩ := Option.bind_eq_some_iff.1 h
  obtain ⟨s₂, hfraction, h⟩ := Option.bind_eq_some_iff.1 h
  obtain ⟨text, -, h⟩ := Option.bind_eq_some_iff.1 h
  have hahead := (ahead_of_advanceWhile hdigits).trans (ahead_of_fraction hfraction)
  split at h <;> cases h
  · exact hahead.trans (.emit _ _)
  · exact hahead

theorem ahead_word : s.word.Ahead s := by
  intro x s' h
  obtain ⟨s₁, hletters, h⟩ := Option.bind_eq_some_iff.1 h
  obtain ⟨text, -, h⟩ := Option.bind_eq_some_iff.1 h
  cases h
  exact (ahead_of_advanceWhile hletters).trans (.emit _ _)

theorem ahead_unexpected (hcurr : s.curr = s.start + 1) : s.unexpected.Ahead s := by
  intro x s' h
  obtain ⟨text, -, h⟩ := Option.bind_eq_some_iff.1 h
  cases h
  refine ⟨.refl _, .refl _, ?_⟩
  rw [hcurr]
  exact Nat.add_le_add_left (Char.utf8Size_pos _) _

theorem ahead_lexeme (c : Char) (hcurr : s.curr = s.start + 1) : (s.lexeme c).Ahead s := by
  unfold lexeme
  split
  · rintro x s' ⟨⟩
    exact .emit _ _
  · exact ahead_operator _ _
  · repeat' split
    · rintro x s' ⟨⟩
      exact .rfl
    · rintro x s' ⟨⟩
      exact ⟨.refl _, .refl _, Nat.le_refl _⟩
    · exact ahead_slash
    · exact ahead_string
    · exact ahead_number
    · exact ahead_word
    · exact ahead_unexpected hcurr

/-- A lexeme has at least one byte. -/
theorem ahead_of_scanToken {r : Except LexicalError Unit} (hstart : s.start = s.curr)
    (h : s.scanToken = some (r, s')) : s'.src = s.src ∧ s.curr < s'.curr := by
  obtain ⟨⟨b, s₁⟩, hadvance, h⟩ := Option.bind_eq_some_iff.1 h
  obtain ⟨-, rfl⟩ := advance_eq_some hadvance
  have hahead := ahead_lexeme (Char.ofUInt8 b) (hstart ▸ rfl) r s' h
  exact ⟨hahead.src, hahead.curr⟩

/-! ## The items of a source -/

/-- The next token or error, and nothing after the token that closes the source. -/
def next (s : Scanner) : Option (Option (Item × Scanner)) :=
  if s.curr ≤ s.len then
    if s.curr = s.len then
      -- One step past the end, so that the source is closed only once.
      some (some (.ok (Token.endOfFile s.line), { s with curr := s.curr + 1 }))
    else
      match _h : ({ s with start := s.curr, pending := none } : Scanner).scanToken with
      | none => none
      | some (.error e, s') => some (some (.error e, s'))
      | some (.ok (), s') =>
        match s'.pending with
        | some (kind, literal) => do
          let text ← s'.slice? s'.start s'.curr
          return some (.ok ⟨kind, text.copy, literal, s'.line⟩, { s' with pending := none })
        | none => s'.next
  else some none
termination_by s.len - s.curr
decreasing_by
  obtain ⟨hsrc, hcurr⟩ := ahead_of_scanToken rfl _h
  have hlen : s'.len = s.len := congrArg String.utf8ByteSize hsrc
  simp only at hcurr
  omega

theorem curr_lt_of_next {item : Item} (h : s.next = some (some (item, s'))) :
    s.curr ≤ s.len ∧ s'.len = s.len ∧ s.curr < s'.curr := by
  fun_induction next s with
  | case1 s hle hend => cases h; exact ⟨hle, rfl, Nat.lt_succ_self _⟩
  | case2 => cases h
  | case3 s hle hend e s₁ htoken =>
    cases h
    obtain ⟨hsrc, hcurr⟩ := ahead_of_scanToken rfl htoken
    exact ⟨hle, congrArg String.utf8ByteSize hsrc, hcurr⟩
  | case4 s hle hend s₁ htoken kind literal hpending =>
    obtain ⟨text, -, h⟩ := Option.bind_eq_some_iff.1 h
    cases h
    obtain ⟨hsrc, hcurr⟩ := ahead_of_scanToken rfl htoken
    exact ⟨hle, congrArg String.utf8ByteSize hsrc, hcurr⟩
  | case5 s hle hend s₁ htoken hpending ih =>
    obtain ⟨-, hlen, hlt⟩ := ih h
    obtain ⟨hsrc, hcurr⟩ := ahead_of_scanToken rfl htoken
    exact ⟨hle, hlen.trans (congrArg String.utf8ByteSize hsrc), Nat.lt_trans hcurr hlt⟩
  | case6 => cases h

/-- All that is left of a source, after the items that have been collected. -/
def drain (s : Scanner) (items : Array Item) : Option (Array Item) :=
  match _h : s.next with
  | none => none
  | some none => some items
  | some (some (item, s')) => s'.drain (items.push item)
termination_by s.len + 1 - s.curr
decreasing_by
  obtain ⟨hle, hlen, hlt⟩ := curr_lt_of_next _h
  omega

/-- All that a source yields, in order. -/
def items? (source : String) : Option (List Item) := ((new source).drain #[]).map Array.toList

end Scanner

/-- Everything that a source yields, in order. -/
def scan (source : String) : List Lexer.Item := (Scanner.items? source).getD []

end Lox
