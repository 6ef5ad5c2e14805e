import Lox.Token.Lexer

/-!
# Cutting a text into segments

What the scanner does byte by byte, said of characters: a text is cut into segments from left to
right, one blank, one comment up to its newline, one lexeme, one character that starts nothing, a
number that cannot be read, or a string that is never closed. `first` takes the first segment off
and `segments` takes them all; nothing is lost on the way (`first_append`).

Lines are counted on the segments afterwards. Everything that a segment yields stands on the
line where the segment ends, and the end of the source yields one more token.
-/

namespace Lox

namespace Lexer

/-- What a segment is. -/
inductive Shape where
  | blank
  | comment
  | lexeme (kind : Kind) (literal : Option Literal)
  | stray (c : Char)
  | badNumber
  | openString
deriving DecidableEq

/-- A piece of source with its shape. -/
structure Segment where
  shape : Shape
  text : List Char
deriving DecidableEq

/-- The characters that only divide lexemes. -/
def isBlank (c : Char) : Bool := c = ' ' || c = '\r' || c = '\t' || c = '\n'

/-- The fraction at the start of a text: a point and the digits after it, or nothing. -/
def fraction : List Char → List Char
  | '.' :: d :: rest => if d.isDigit then '.' :: d :: rest.takeWhile Char.isDigit else []
  | _ => []

/-! ## Segments -/

/-- A lexeme without a value. -/
def bare (kind : Kind) (text : List Char) : Segment := ⟨.lexeme kind none, text⟩

/-- The number that starts with the digit `c`. -/
def number (c : Char) (cs : List Char) : Segment × List Char :=
  let rest := cs.dropWhile Char.isDigit
  let point := fraction rest
  let text := c :: cs.takeWhile Char.isDigit ++ point
  let shape :=
    match decimal? text with
    | some value => .lexeme .number (some (.number value))
    | none => .badNumber
  (⟨shape, text⟩, rest.drop point.length)

/-- The word that starts with `c`. -/
def word (c : Char) (cs : List Char) : Segment × List Char :=
  let text := c :: cs.takeWhile inWord
  (bare (Kind.ofWord (String.ofList text)) text, cs.dropWhile inWord)

/-- The string whose opening quote has been read. -/
def quoted (cs : List Char) : Segment × List Char :=
  let body := cs.takeWhile (· ≠ '"')
  match cs.dropWhile (· ≠ '"') with
  | [] => (⟨.openString, '"' :: cs⟩, [])
  | close :: rest =>
    (⟨.lexeme .string (some (.text (String.ofList body))), '"' :: body ++ [close]⟩, rest)

/-- What starts with a slash: a comment or the operator. -/
def slash : List Char → Segment × List Char
  | '/' :: rest =>
    (⟨.comment, '/' :: '/' :: rest.takeWhile (· ≠ '\n')⟩, rest.dropWhile (· ≠ '\n'))
  | cs => (bare .slash ['/'], cs)

/-- What starts with a character that `=` may extend. -/
def operator (c : Char) (alone joined : Kind) : List Char → Segment × List Char
  | '=' :: rest => (bare joined [c, '='], rest)
  | cs => (bare alone [c], cs)

/-- The first segment of the text `c :: cs`, and what follows it. -/
def first (c : Char) (cs : List Char) : Segment × List Char :=
  match punctuator? c, operator? c with
  | some kind, _ => (bare kind [c], cs)
  | none, some (alone, joined) => operator c alone joined cs
  | none, none =>
    if isBlank c then (⟨.blank, [c]⟩, cs)
    else if c = '/' then slash cs
    else if c = '"' then quoted cs
    else if c.isDigit then number c cs
    else if startsWord c then word c cs
    else (⟨.stray c, [c]⟩, cs)

/-! ## What is not looked at -/

theorem fraction_of_ne (cs : List Char) {c : Char} (hc : c ≠ '.') : fraction (c :: cs) = [] := by
  unfold fraction
  split
  · next heq => exact absurd (List.cons.inj heq).1 hc
  · rfl

theorem slash_of_ne (cs : List Char) {c : Char} (hc : c ≠ '/') :
    slash (c :: cs) = (bare .slash ['/'], c :: cs) := by
  unfold slash
  split
  · next heq => exact absurd (List.cons.inj heq).1 hc
  · rfl

theorem operator_of_ne (cs : List Char) (c : Char) (alone joined : Kind) {d : Char} (hd : d ≠ '=') :
    operator c alone joined (d :: cs) = (bare alone [c], d :: cs) := by
  unfold operator
  split
  · next heq => exact absurd (List.cons.inj heq).1 hd
  · rfl

theorem fraction_of_head {cs : List Char} (h : cs.head? ≠ some '.') : fraction cs = [] := by
  cases cs with
  | nil => rfl
  | cons c cs => exact fraction_of_ne _ fun hc => h (congrArg some hc)

theorem slash_of_head {cs : List Char} (h : cs.head? ≠ some '/') :
    slash cs = (bare .slash ['/'], cs) := by
  cases cs with
  | nil => rfl
  | cons c cs => exact slash_of_ne _ fun hc => h (congrArg some hc)

theorem operator_of_head {cs : List Char} (h : cs.head? ≠ some '=') (c : Char)
    (alone joined : Kind) : operator c alone joined cs = (bare alone [c], cs) := by
  cases cs with
  | nil => rfl
  | cons d cs => exact operator_of_ne _ _ _ _ fun hd => h (congrArg some hd)

/-! ## Nothing is lost -/

theorem fraction_append (cs : List Char) :
    fraction cs ++ cs.drop (fraction cs).length = cs := by
  unfold fraction
  split
  · next d rest =>
    have hsplit := List.takeWhile_append_dropWhile (p := Char.isDigit) (l := rest)
    have htail : rest.drop (rest.takeWhile Char.isDigit).length = rest.dropWhile Char.isDigit :=
      List.append_cancel_left ((List.prefix_iff_eq_append.1 (List.takeWhile_prefix _)).trans
        hsplit.symm)
    split
    · simp [htail, hsplit]
    · simp
  · simp

theorem number_append (c : Char) (cs : List Char) :
    (number c cs).1.text ++ (number c cs).2 = c :: cs := by
  simp [number, fraction_append, List.takeWhile_append_dropWhile]

theorem word_append (c : Char) (cs : List Char) :
    (word c cs).1.text ++ (word c cs).2 = c :: cs := by
  simp [word, bare, List.takeWhile_append_dropWhile]

theorem quoted_append (cs : List Char) :
    (quoted cs).1.text ++ (quoted cs).2 = '"' :: cs := by
  unfold quoted
  have hsplit := List.takeWhile_append_dropWhile (p := (· ≠ '"')) (l := cs)
  split
  · simp
  · next h =>
    rw [h] at hsplit
    simpa using hsplit

theorem slash_append (cs : List Char) : (slash cs).1.text ++ (slash cs).2 = '/' :: cs := by
  unfold slash
  split
  · simp [List.takeWhile_append_dropWhile]
  · simp [bare]

theorem operator_append (c : Char) (alone joined : Kind) (cs : List Char) :
    (operator c alone joined cs).1.text ++ (operator c alone joined cs).2 = c :: cs := by
  unfold operator
  split <;> simp [bare]

/-- The first segment and what follows it make up the text. -/
theorem first_append (c : Char) (cs : List Char) :
    (first c cs).1.text ++ (first c cs).2 = c :: cs := by
  unfold first
  split
  · simp [bare]
  · exact operator_append ..
  · split
    · simp
    · split
      · next h => rw [h]; exact slash_append cs
      · split
        · next h => rw [h]; exact quoted_append cs
        · split
          · exact number_append c cs
          · split
            · exact word_append c cs
            · simp

theorem first_text_ne_nil (c : Char) (cs : List Char) : (first c cs).1.text ≠ [] := by
  have hnumber : (number c cs).1.text ≠ [] := by simp [number]
  have hquoted : (quoted cs).1.text ≠ [] := by
    unfold quoted; split <;> simp
  have hslash : (slash cs).1.text ≠ [] := by
    unfold slash; split <;> simp [bare]
  have hoperator (a b : Kind) : (operator c a b cs).1.text ≠ [] := by
    unfold operator; split <;> simp [bare]
  unfold first
  split
  · simp [bare]
  · exact hoperator _ _
  · repeat' split
    all_goals first | assumption | simp [word, bare]

/-- What follows the first segment is shorter than the text. -/
theorem first_rest_length (c : Char) (cs : List Char) : (first c cs).2.length ≤ cs.length := by
  have h := congrArg List.length (first_append c cs)
  have hpos := List.length_pos_iff.2 (first_text_ne_nil c cs)
  simp only [List.length_append, List.length_cons] at h
  omega

/-- The segments of a text, from left to right. -/
def segments : List Char → List Segment
  | [] => []
  | c :: cs => (first c cs).1 :: segments (first c cs).2
termination_by cs => cs.length
decreasing_by
  have := first_rest_length c cs
  simp only [List.length_cons]
  omega

/-- The segments of a text make it up. -/
theorem flatMap_segments (cs : List Char) : (segments cs).flatMap Segment.text = cs := by
  fun_induction segments cs with
  | case1 => rfl
  | case2 c cs ih => rw [List.flatMap_cons, ih, first_append]

/-! ## Items -/

/-- What a segment that ends on `line` yields. -/
def Segment.item? (s : Segment) (line : Nat) : Option Item :=
  match s.shape with
  | .blank | .comment => none
  | .lexeme kind literal => some (.ok ⟨kind, String.ofList s.text, literal, line⟩)
  | .stray c => some (.error ⟨line, .unexpected c⟩)
  | .badNumber => some (.error ⟨line, .invalidNumber (String.ofList s.text)⟩)
  | .openString => some (.error ⟨line, .unterminatedString⟩)

/-- The items of segments that start on `line`, and the end of the source after them. -/
def items (line : Nat) : List Segment → List Item
  | [] => [.ok (Token.endOfFile line)]
  | s :: rest =>
    let line := line + s.text.count '\n'
    (s.item? line).toList ++ items line rest

end Lexer

end Lox
