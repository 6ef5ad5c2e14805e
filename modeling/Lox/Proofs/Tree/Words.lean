import Lox.Proofs.Tree.Unplaced
import Lox.Tree.Text

/-!
# Words of printed trees

A printed tree is read word by word: blanks stand between words, and a parenthesis is a word of its
own (`words`). A text that is put together with blanks and parentheses has the words of its pieces,
so what is printed of a tree can be followed without a look at its characters. The operators, names
and numbers in a legible tree are one word each (`IsWord`).

Three sorts of expressions are one word: constants, names and `this`. Such a word tells which
expression it stands for (`Expr.leaf?`).
-/

namespace Lox

/-- A piece of a printed tree. -/
inductive Word where
  | opening
  | closing
  | text (w : String)
deriving DecidableEq

namespace Word

/-- What stands between two texts: a blank, or a parenthesis, which is a word too. -/
def between? : Char → Option (List Word)
  | ' ' => some []
  | '(' => some [opening]
  | ')' => some [closing]
  | _ => none

/-- The word of these characters, if there are any. -/
def ofChars (cs : List Char) : List Word := if cs = [] then [] else [text (String.ofList cs)]

/-- The words of the characters, after those of a word that has begun. -/
def split (begun : List Char) : List Char → List Word
  | [] => ofChars begun
  | c :: cs =>
    match between? c with
    | some marks => ofChars begun ++ (marks ++ split [] cs)
    | none => split (begun ++ [c]) cs

theorem split_append {c : Char} {marks : List Word} (h : between? c = some marks)
    (begun cs ds : List Char) :
    split begun (cs ++ c :: ds) = split begun cs ++ (marks ++ split [] ds) := by
  induction cs generalizing begun with
  | nil => simp [split, h]
  | cons x cs ih => cases hx : between? x <;> simp [split, hx, ih]

theorem split_of_none {cs : List Char} (h : ∀ c ∈ cs, between? c = none) (begun : List Char) :
    split begun cs = ofChars (begun ++ cs) := by
  induction cs generalizing begun with
  | nil => rw [split, List.append_nil]
  | cons c cs ih =>
    obtain ⟨hc, hcs⟩ := List.forall_mem_cons.1 h
    simp only [split, hc]
    rw [ih hcs, List.append_assoc, List.singleton_append]

end Word

open Word

/-- The words of a text. -/
def words (s : String) : List Word := split [] s.toList

theorem forall₂_map {α β γ : Type} {R : β → γ → Prop} {f : α → β} {g : α → γ} {as : List α}
    (h : ∀ a ∈ as, R (f a) (g a)) : List.Forall₂ R (as.map f) (as.map g) := by
  rw [List.forall₂_map_left_iff, List.forall₂_map_right_iff]
  exact List.forall₂_same.2 h

/-! ## Texts put together -/

theorem words_blank (a b : String) : words (a ++ " " ++ b) = words a ++ words b := by
  rw [words, String.toList_append, String.toList_append, List.append_assoc]
  exact split_append (c := ' ') rfl [] a.toList b.toList

theorem words_opening (a b : String) : words (a ++ "(" ++ b) = words a ++ opening :: words b := by
  rw [words, String.toList_append, String.toList_append, List.append_assoc]
  exact split_append (c := '(') rfl [] a.toList b.toList

theorem words_closing (a : String) : words (a ++ ")") = words a ++ [closing] := by
  rw [words, String.toList_append]
  exact split_append (c := ')') rfl [] a.toList []

@[simp] theorem append_spaced_nil (a : String) : a ++ spaced [] = a := String.append_empty

@[simp] theorem append_spaced_cons (a text : String) (texts : List String) :
    a ++ spaced (text :: texts) = a ++ " " ++ text ++ spaced texts := by
  simp [spaced, String.append_assoc]

theorem words_spaced (a : String) (texts : List String) :
    words (a ++ spaced texts) = words a ++ texts.flatMap words := by
  induction texts generalizing a with
  | nil => rw [append_spaced_nil, List.flatMap_nil, List.append_nil]
  | cons text texts ih =>
    rw [append_spaced_cons, ih, words_blank, List.append_assoc, List.flatMap_cons]

theorem intercalate_cons (text : String) (texts : List String) :
    " ".intercalate (text :: texts) = text ++ spaced texts := by
  induction texts generalizing text with
  | nil => rw [String.intercalate_singleton, append_spaced_nil]
  | cons next texts ih =>
    rw [String.intercalate_cons_cons, ih, append_spaced_cons, ← String.append_assoc]

theorem words_intercalate (texts : List String) :
    words (" ".intercalate texts) = texts.flatMap words := by
  cases texts with
  | nil => rfl
  | cons text texts => rw [intercalate_cons, words_spaced, List.flatMap_cons]

/-! ## Single words -/

/-- A text that is one word. -/
def IsWord (w : String) : Prop := w.toList ≠ [] ∧ ∀ c ∈ w.toList, between? c = none

instance (w : String) : Decidable (IsWord w) :=
  have : Decidable (∀ c ∈ w.toList, between? c = none) := List.decidableBAll _ _
  inferInstanceAs (Decidable (_ ∧ _))

theorem IsWord.words {w : String} (h : IsWord w) : words w = [.text w] := by
  rw [Lox.words, split_of_none h.2, ofChars, List.nil_append, if_neg h.1, String.ofList_toList]

/-- Characters of a sort to which neither the blank nor the parentheses belong. -/
theorem between?_of_sort {P : Char → Prop} {text : List Char} (h : ∀ c ∈ text, P c)
    (hblank : ¬P ' ') (hopening : ¬P '(') (hclosing : ¬P ')') :
    ∀ c ∈ text, between? c = none := by
  intro c hc
  have hP := h c hc
  unfold between?
  split
  · exact absurd hP hblank
  · exact absurd hP hopening
  · exact absurd hP hclosing
  · rfl

theorem between?_of_punctuator? {c : Char} {k : Kind} (h : Lexer.punctuator? c = some k)
    (hopen : k ≠ .leftParen) (hclose : k ≠ .rightParen) : between? c = none := by
  unfold between?
  split
  · cases h
  · cases h
    exact absurd rfl hopen
  · cases h
    exact absurd rfl hclose
  · rfl

theorem between?_of_operator? {c : Char} {ks : Kind × Kind} (h : Lexer.operator? c = some ks) :
    between? c = none := by
  unfold between?
  split
  · cases h
  · cases h
  · cases h
  · rfl

/-- A lexeme without a value is a word, if it is no parenthesis. -/
theorem isWord_of_lexeme {k : Kind} {w : String} (h : Lexer.Lexeme k none w.toList)
    (hopen : k ≠ .leftParen) (hclose : k ≠ .rightParen) : IsWord w := by
  generalize htext : w.toList = text at h
  have hne := h.ne_nil
  unfold IsWord
  rw [htext]
  refine ⟨hne, ?_⟩
  cases h with
  | punctuator hc =>
    have hbetween := between?_of_punctuator? (Lexer.mem_punctuators.1 hc) hopen hclose
    exact List.forall_mem_singleton.2 hbetween
  | slash => exact List.forall_mem_singleton.2 rfl
  | alone hc =>
    exact List.forall_mem_singleton.2 (between?_of_operator? (Lexer.mem_operators.1 hc))
  | joined hc =>
    exact List.forall_mem_cons.2
      ⟨between?_of_operator? (Lexer.mem_operators.1 hc), List.forall_mem_singleton.2 rfl⟩
  | word hc hcs =>
    exact between?_of_sort (P := fun x => Lexer.inWord x)
      (List.forall_mem_cons.2 ⟨Lexer.inWord_of_startsWord (Lexer.startsWord_iff.2 hc),
        fun x hx => Lexer.inWord_iff.2 (hcs x hx)⟩)
      (by decide) (by decide) (by decide)

theorem isWord_numberText {x : Float} (h : Number.IsPlain x) : IsWord (Number.text x) := by
  have hnumeral := Number.numeral_text h
  refine ⟨fun hnil => ?_, between?_of_sort hnumeral.mem (by decide) (by decide) (by decide)⟩
  obtain ⟨c, hc, -⟩ := hnumeral.head
  rw [hnil] at hc
  cases hc

theorem Token.Is.isWord {t : Token} {k : Kind} (h : t.Is k) (hopen : k ≠ .leftParen)
    (hclose : k ≠ .rightParen) : IsWord t.lexeme :=
  isWord_of_lexeme (Lexer.lexeme_of_text? h.text) hopen hclose

theorem Token.IsIdentifier.isWord {t : Token} (h : t.IsIdentifier) : IsWord t.lexeme :=
  isWord_of_lexeme h.name (by decide) (by decide)

/-! ## Texts in parentheses -/

/-- A text with a head in parentheses. -/
def listed (head : String) (texts : List String) : String := "(" ++ head ++ spaced texts ++ ")"

theorem words_listed {head : String} (h : IsWord head) (texts : List String) :
    words (listed head texts) =
      opening :: .text head :: (texts.flatMap words ++ [closing]) := by
  have hopening := words_opening "" head
  rw [String.empty_append] at hopening
  rw [listed, words_closing, words_spaced, hopening, h.words]
  rfl

/-! ## Expressions of one word -/

/-- The expression that a keyword stands for. -/
def Kind.leaf? : Kind → Option Expr
  | .nilWord => some (.constant .nil)
  | .trueWord => some (.constant (.bool true))
  | .falseWord => some (.constant (.bool false))
  | .thisWord => some (.this 0 (.ofKind .thisWord))
  | _ => none

/-- The text starts with a digit. -/
def startsNumber (w : String) : Bool := w.toList.head?.any Char.isDigit

/-- The expression that a word stands for. -/
def Expr.leaf? (w : String) : Option Expr :=
  match Kind.fixed? w with
  | some k => k.leaf?
  | none =>
    if startsNumber w then (Number.read? w.toList).map fun x => .constant (.number x)
    else some (.var 0 (.name w))

theorem leaf?_keyword {k : Kind} {w : String} (h : k.text? = some w) : Expr.leaf? w = k.leaf? := by
  unfold Expr.leaf?
  rw [Kind.fixed?_of_text? h]

theorem fixed?_of_startsNumber {w : String} (h : startsNumber w) : Kind.fixed? w = none := by
  have hall : ∀ k ∈ Kind.all, ∀ w ∈ k.text?, startsNumber w = false := by decide +kernel
  cases hk : Kind.fixed? w with
  | none => rfl
  | some k =>
    rw [hall k k.mem_all w (Kind.text?_of_fixed? hk)] at h
    cases h

theorem leaf?_number {x : Float} (h : Number.IsPlain x) :
    Expr.leaf? (Number.text x) = some (.constant (.number x)) := by
  have hstarts : startsNumber (Number.text x) := by
    obtain ⟨c, hc, hdigit⟩ := (Number.numeral_text h).head
    rw [startsNumber, Option.mem_def.1 hc]
    exact hdigit
  unfold Expr.leaf?
  rw [fixed?_of_startsNumber hstarts]
  dsimp only
  rw [if_pos hstarts, Number.read?_text h]
  rfl

theorem IsName.startsNumber {w : String} (h : IsName w) : startsNumber w = false := by
  obtain ⟨c, cs, hw, hc, -⟩ := h.chars
  rw [Lox.startsNumber, hw]
  exact Lexer.not_isDigit_of_startsWord hc

theorem leaf?_name {w : String} (h : IsName w) : Expr.leaf? w = some (.var 0 (.name w)) := by
  unfold Expr.leaf?
  rw [h.fixed?]
  dsimp only
  rw [h.startsNumber, if_neg Bool.false_ne_true]

/-! ## Operators between two operands -/

/-- The expression with an operator between two operands. -/
def Expr.join (k : Kind) (left right : Expr) : Expr :=
  if k = .orWord ∨ k = .andWord then .logical left (.ofKind k) right
  else .binary left (.ofKind k) right

theorem join_binary {k : Kind} (h : k ∈ Grammar.binaryOperators) (left right : Expr) :
    Expr.join k left right = .binary left (.ofKind k) right := by
  have hall : ∀ k ∈ Grammar.binaryOperators, ¬(k = .orWord ∨ k = .andWord) := by decide
  rw [Expr.join, if_neg (hall k h)]

end Lox
