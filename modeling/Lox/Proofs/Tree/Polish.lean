import Lox.Proofs.Grammar.Legible
import Lox.Proofs.Tree.Words

/-!
# Reverse Polish form needs no parentheses

A printed expression is read from left to right with a stack. Each word of reverse Polish form says
what to do with the expressions that have been read (`Polish.step?`): to put one more there, or to
replace some of them by the node that they are the parts of. An assignment and the assignment of a
property end in the same word, and the expression read last tells them apart.

The reader gives back the tree of every legible expression, without the parentheses that only group
and without places (`Polish.reads_words`). So the text determines this tree.

Main statement: `ungrouped_eq_of_reversePolish`.
-/

namespace Lox

namespace Polish

/-! ## A reader -/

/-- What a word asks for. -/
inductive Step where
  | pass
  | leaf (e : Expr)
  | unary (k : Kind)
  | join (k : Kind)
  | assign
  | property (name : String)
  | call (count : Nat)
  | method

/-- The words that are put together of a sign and something else. -/
def special? : List Char → Option Step
  | ['~'] => some (.unary .minus)
  | '.' :: name => some (.property (String.ofList name))
  | 'c' :: 'a' :: 'l' :: 'l' :: '/' :: count => some (.call (Lexer.digitsValue count))
  | _ => none

/-- The operators and keywords. -/
def ofKind : Kind → Step
  | .superWord => .pass
  | .equal => .assign
  | .bang => .unary .bang
  | k =>
    match k.leaf? with
    | some e => .leaf e
    | none => .join k

/-- What a word asks for. The parentheses stand only around a method of a superclass. -/
def step? : Word → Option Step
  | .opening => some .pass
  | .closing => some .method
  | .text w =>
    match special? w.toList with
    | some step => some step
    | none =>
      match Kind.fixed? w with
      | some k => some (ofKind k)
      | none => (Expr.leaf? w).map .leaf

/-- A step on the expressions that have been read, the last of them first. -/
def Step.run : Step → List Expr → Option (List Expr)
  | pass, read => some read
  | leaf e, read => some (e :: read)
  | unary k, right :: read => some (.unary (.ofKind k) right :: read)
  | join k, right :: left :: read => some (.join k left right :: read)
  | assign, .var _ name :: value :: read => some (.assign 0 name value :: read)
  | assign, .get value name :: object :: read => some (.set object name value :: read)
  | property name, object :: read => some (.get object (.name name) :: read)
  | call count, callee :: read =>
    some (.call callee (.ofKind .rightParen) (read.take count).reverse :: read.drop count)
  | method, .var _ name :: read => some (.super 0 (.ofKind .superWord) name :: read)
  | _, _ => none

/-- The expressions that have been read after a word. -/
def push (read : List Expr) (w : Word) : Option (List Expr) := (step? w).bind (·.run read)

/-! ## What the words of an expression ask for -/

theorem special?_eq_none {text : List Char} (hdot : text.head? ≠ some '.') (hneg : '~' ∉ text)
    (hslash : '/' ∉ text) : special? text = none := by
  unfold special?
  split
  · exact absurd List.mem_cons_self hneg
  · exact absurd rfl hdot
  · exact absurd (by simp) hslash
  · rfl

theorem ofKind_operator {k : Kind} (h : k ∈ .orWord :: .andWord :: Grammar.binaryOperators) :
    ofKind k = .join k := by
  fin_cases h <;> rfl

theorem push_fixed {k : Kind} {w : String} (h : k.text? = some w) (hdot : k ≠ .dot)
    (read : List Expr) : push read (.text w) = (ofKind k).run read := by
  have hall : ∀ k ∈ Kind.all, k ≠ .dot → ∀ w ∈ k.text?, (special? w.toList).isNone := by
    decide +kernel
  have hspecial := Option.isNone_iff_eq_none.1 (hall k k.mem_all hdot w h)
  rw [push, step?, hspecial, Kind.fixed?_of_text? h]
  rfl

theorem push_leaf {w : String} {e : Expr} (hdot : w.toList.head? ≠ some '.') (hneg : '~' ∉ w.toList)
    (hslash : '/' ∉ w.toList) (hfixed : Kind.fixed? w = none) (h : Expr.leaf? w = some e)
    (read : List Expr) : push read (.text w) = some (e :: read) := by
  rw [push, step?, special?_eq_none hdot hneg hslash, hfixed, h]
  rfl

theorem push_name {w : String} (h : IsName w) (read : List Expr) :
    push read (.text w) = some (.var 0 (.name w) :: read) := by
  obtain ⟨c, cs, hw, hc, hcs⟩ := h.chars
  refine push_leaf ?_ ?_ ?_ h.fixed? (leaf?_name h) read
  · rw [hw]
    rintro ⟨⟩
    exact absurd hc (by decide)
  · rw [hw]
    exact fun hmem => absurd (hcs _ hmem) (by decide)
  · rw [hw]
    exact fun hmem => absurd (hcs _ hmem) (by decide)

theorem push_number {x : Float} (h : Number.IsPlain x) (read : List Expr) :
    push read (.text (Number.text x)) = some (.constant (.number x) :: read) := by
  have hnumeral := Number.numeral_text h
  obtain ⟨c, hc, hdigit⟩ := hnumeral.head
  refine push_leaf ?_ ?_ ?_ (fixed?_of_startsNumber ?_) (leaf?_number h) read
  · rw [Option.mem_def.1 hc]
    rintro ⟨⟩
    exact absurd hdigit (by decide)
  · exact fun hmem => absurd (hnumeral.mem _ hmem) (by decide)
  · exact fun hmem => absurd (hnumeral.mem _ hmem) (by decide)
  · rw [startsNumber, Option.mem_def.1 hc]
    exact hdigit

theorem push_property (object : Expr) (name : String) (read : List Expr) :
    push (object :: read) (.text ("." ++ name)) = some (.get object (.name name) :: read) := by
  have hspecial : special? ("." ++ name).toList = some (.property name) := by
    rw [String.toList_append]
    exact congrArg (fun w => some (Step.property w)) (String.ofList_toList ..)
  rw [push, step?, hspecial]
  rfl

theorem toList_call (count : Nat) :
    s!"call/{count}".toList = ['c', 'a', 'l', 'l', '/'] ++ Number.digitsOf count := by
  have hcall : s!"call/{count}" = "call/" ++ toString count := rfl
  rw [hcall, String.toList_append, Nat.toString_eq_repr, Nat.toList_repr]
  rfl

theorem push_call (callee : Expr) (arguments read : List Expr) :
    push (callee :: (arguments.reverse ++ read)) (.text s!"call/{arguments.length}") =
      some (.call callee (.ofKind .rightParen) arguments :: read) := by
  have hspecial : special? s!"call/{arguments.length}".toList = some (.call arguments.length) := by
    rw [toList_call]
    exact congrArg (fun n => some (Step.call n)) (Number.digitsValue_digitsOf _)
  have htake : (arguments.reverse ++ read).take arguments.length = arguments.reverse :=
    List.take_left' List.length_reverse
  have hdrop : (arguments.reverse ++ read).drop arguments.length = read :=
    List.drop_left' List.length_reverse
  rw [push, step?, hspecial]
  dsimp only [Option.bind_some, Step.run]
  rw [htake, hdrop, List.reverse_reverse]

theorem isWord_call (count : Nat) : IsWord s!"call/{count}" := by
  unfold IsWord
  rw [toList_call]
  refine ⟨List.cons_ne_nil _ _, List.forall_mem_append.2 ⟨?_, ?_⟩⟩
  · exact between?_of_sort (P := (· ∈ ['c', 'a', 'l', 'l', '/'])) (fun _ => id)
      (by decide) (by decide) (by decide)
  · exact between?_of_sort (P := fun c => c.isDigit) (fun _ => Number.isDigit_of_mem_digitsOf)
      (by decide) (by decide) (by decide)

theorem isWord_property {w : String} (h : IsWord w) : IsWord ("." ++ w) := by
  unfold IsWord
  rw [String.toList_append]
  exact ⟨List.cons_ne_nil _ _, List.forall_mem_cons.2 ⟨rfl, h.2⟩⟩

/-! ## The tree that is read -/

/-- The words put an expression on those that have been read. -/
def Reads (ws : List Word) (e : Expr) : Prop :=
  ∀ read, ws.foldlM push read = some (e :: read)

theorem foldlM_push_append {ws ws' : List Word} {read next : List Expr}
    (h : ws.foldlM push read = some next) :
    (ws ++ ws').foldlM push read = ws'.foldlM push next := by
  rw [List.foldlM_append, h]
  rfl

/-- Texts one after another put their expressions there one after another. -/
theorem foldlM_texts {texts : List String} {es : List Expr}
    (h : List.Forall₂ (fun text e => Reads (words text) e) texts es) (read : List Expr) :
    (texts.flatMap words).foldlM push read = some (es.reverse ++ read) := by
  induction h generalizing read with
  | nil => rfl
  | cons h _ ih =>
    rw [List.flatMap_cons, foldlM_push_append (h read), ih, List.reverse_cons, List.append_assoc,
      List.singleton_append]

namespace Reads

variable {text left right w : String} {e l r : Expr}

theorem word (hw : IsWord w) (h : ∀ read, push read (.text w) = some (e :: read)) :
    Reads (words w) e := by
  intro read
  rw [hw.words, List.foldlM_cons, h]
  rfl

/-- A word behind a text. -/
theorem unary (hr : Reads (words right) r) (hw : IsWord w)
    (h : ∀ read, push (r :: read) (.text w) = some (e :: read)) :
    Reads (words (right ++ " " ++ w)) e := by
  intro read
  rw [words_blank, foldlM_push_append (hr read), hw.words, List.foldlM_cons, h]
  rfl

/-- A word behind two texts. -/
theorem binary (hl : Reads (words left) l) (hr : Reads (words right) r) (hw : IsWord w)
    (h : ∀ read, push (r :: l :: read) (.text w) = some (e :: read)) :
    Reads (words (left ++ " " ++ right ++ " " ++ w)) e := by
  intro read
  rw [words_blank, words_blank, List.append_assoc, foldlM_push_append (hl read),
    foldlM_push_append (hr _), hw.words, List.foldlM_cons, h]
  rfl

theorem name {t : Token} (h : t.IsIdentifier) :
    Reads (words t.lexeme) (.var 0 t.unplaced) := by
  rw [h.eq]
  exact word h.isWord (push_name h.name)

/-- The sign of an assignment behind two texts. -/
theorem sign (hl : Reads (words left) l) (hr : Reads (words right) r)
    (h : ∀ read, Step.assign.run (r :: l :: read) = some (e :: read)) :
    Reads (words (left ++ " " ++ right ++ " =")) e := by
  have hsign : left ++ " " ++ right ++ " =" = left ++ " " ++ right ++ " " ++ "=" := by
    have hmark : " " ++ "=" = " =" := rfl
    rw [← hmark, ← String.append_assoc]
  have hpush := fun read => push_fixed (k := .equal) rfl (by decide) (r :: l :: read)
  rw [hsign]
  exact hl.binary hr (by decide) fun read => (hpush read).trans (h read)

/-- A property behind a text. -/
theorem property {t : Token} (hr : Reads (words right) r) (h : t.IsIdentifier) :
    Reads (words (right ++ " ." ++ t.lexeme)) (.get r t.unplaced) := by
  have hdot : right ++ " ." ++ t.lexeme = right ++ " " ++ ("." ++ t.lexeme) := by
    have hmark : " " ++ "." = " ." := rfl
    rw [← hmark, ← String.append_assoc, String.append_assoc]
  rw [hdot, h.eq]
  exact hr.unary (isWord_property h.isWord) (push_property r t.lexeme)

theorem constant {value : Constant} (h : (Expr.constant value).IsLegible) :
    Reads (words value.written) (.constant value) := by
  cases value with
  | nil => exact word (by decide) (push_fixed (k := .nilWord) rfl (by decide))
  | bool value =>
    cases value with
    | true => exact word (by decide) (push_fixed (k := .trueWord) rfl (by decide))
    | false => exact word (by decide) (push_fixed (k := .falseWord) rfl (by decide))
  | number x => exact word (isWord_numberText h) (push_number h)
  | text => cases h

/-- An operator behind its operands. -/
theorem operator {op : Token} {k : Kind} (hop : op.Is k)
    (hk : k ∈ .orWord :: .andWord :: Grammar.binaryOperators) (hl : Reads (words left) l)
    (hr : Reads (words right) r) :
    Reads (words (left ++ " " ++ right ++ " " ++ op.lexeme)) (.join k l r) := by
  have hall : ∀ k ∈ .orWord :: .andWord :: Grammar.binaryOperators,
      k ≠ .leftParen ∧ k ≠ .rightParen ∧ k ≠ .dot := by decide
  obtain ⟨hopen, hclose, hdot⟩ := hall k hk
  refine hl.binary hr (hop.isWord hopen hclose) fun read => ?_
  rw [push_fixed hop.text hdot, ofKind_operator hk]
  rfl

end Reads

/-- The words of a legible expression put its tree on those that have been read, without the
parentheses that only group and without places. -/
theorem reads_words {e : Expr} (h : (Part.expr e).Legible) :
    Reads (words e.reversePolish) e.ungrouped.unplaced := by
  refine Part.Legible.expr_induction (motive := fun e =>
    Reads (words e.reversePolish) e.ungrouped.unplaced) (fun e hown ih => ?_) h
  cases e with
  | constant value => exact .constant hown
  | grouping inner => exact ih inner List.mem_cons_self
  | unary op right =>
    have hright := ih right List.mem_cons_self
    -- A minus before one operand is written `~`, and `!` is written as it is.
    rcases hown with hop | hop
    · have hsign : Expr.polishSign op = op.lexeme := by
        rw [Expr.polishSign, hop.kind, if_neg (by decide)]
      rw [Expr.reversePolish, hsign, Expr.ungrouped, Expr.unplaced, hop.eq]
      exact hright.unary (hop.isWord (by decide) (by decide)) fun _ =>
        push_fixed hop.text (by decide) _
    · have hsign : Expr.polishSign op = "~" := by
        rw [Expr.polishSign, hop.kind, if_pos rfl]
      rw [Expr.reversePolish, hsign, Expr.ungrouped, Expr.unplaced, hop.eq]
      exact hright.unary (by decide) fun _ => rfl
  | binary left op right =>
    have hleft := ih left List.mem_cons_self
    have hright := ih right (List.mem_cons_of_mem _ List.mem_cons_self)
    obtain ⟨k, hk, hop⟩ := hown
    have h := Reads.operator hop (by simp [hk]) hleft hright
    rw [join_binary hk, ← hop.eq] at h
    exact h
  | logical left op right =>
    have hleft := ih left List.mem_cons_self
    have hright := ih right (List.mem_cons_of_mem _ List.mem_cons_self)
    rw [Expr.reversePolish, Expr.ungrouped, Expr.unplaced]
    rcases hown with hop | hop
    · rw [hop.eq]
      exact Reads.operator hop (by decide) hleft hright
    · rw [hop.eq]
      exact Reads.operator hop (by decide) hleft hright
  | var id name => exact .name hown
  | assign id name value =>
    have hvalue := ih value List.mem_cons_self
    exact hvalue.sign (.name hown) fun _ => rfl
  | call callee paren arguments =>
    have hcallee := ih callee List.mem_cons_self
    have harguments : List.Forall₂ (fun text e => Reads (words text) e)
        (arguments.map Expr.reversePolish) (arguments.map fun e => e.ungrouped.unplaced) :=
      forall₂_map fun e he => ih e (List.mem_cons_of_mem _ he)
    intro read
    -- The arguments are put there before the callee, which then lies on top of them.
    have hpush := push_call callee.ungrouped.unplaced
      (arguments.map fun e => e.ungrouped.unplaced) read
    rw [List.length_map] at hpush
    rw [Expr.reversePolish, Expr.reversePolishAll_eq_map, words_intercalate, List.flatMap_append,
      foldlM_push_append (foldlM_texts harguments read), List.flatMap_cons,
      foldlM_push_append (hcallee _), List.flatMap_singleton, (isWord_call _).words,
      List.foldlM_cons, hpush, Expr.ungrouped, Expr.unplaced, hown.eq, Expr.ungroupedAll_eq_map,
      Expr.unplacedAll_eq_map, List.map_map]
    rfl
  | get object name => exact (ih object List.mem_cons_self).property hown
  | set object name value =>
    have hvalue := ih value List.mem_cons_self
    have hobject := ih object (List.mem_cons_of_mem _ List.mem_cons_self)
    have htext : (Expr.set object name value).reversePolish =
        object.reversePolish ++ " " ++ (value.reversePolish ++ " ." ++ name.lexeme) ++ " =" := by
      simp only [Expr.reversePolish, String.append_assoc]
    -- Up to the last word, the name is read as that of a property of the value.
    rw [htext]
    exact hobject.sign (hvalue.property hown) fun _ => rfl
  | this id keyword =>
    rw [Expr.reversePolish, Expr.ungrouped, Expr.unplaced, hown.eq]
    exact .word (by decide) (push_fixed (k := .thisWord) rfl (by decide))
  | super id keyword method =>
    obtain ⟨hkeyword, hmethod⟩ := hown
    have htext : (Expr.super id keyword method).reversePolish = listed "super" [method.lexeme] := by
      simp [Expr.reversePolish, listed, spaced, ← String.append_assoc, String.join]
    intro read
    have hopening : push read .opening = some read := rfl
    have hsuper : push read (.text "super") = some read :=
      push_fixed (k := .superWord) rfl (by decide) read
    have hname := push_name hmethod.name read
    rw [← hmethod.eq] at hname
    rw [htext, words_listed (by decide), List.flatMap_singleton, hmethod.isWord.words,
      List.singleton_append, List.foldlM_cons, hopening, Option.bind_eq_bind, Option.bind_some,
      List.foldlM_cons, hsuper, Option.bind_eq_bind, Option.bind_some,
      List.foldlM_cons, hname, Expr.ungrouped, Expr.unplaced, hkeyword.eq]
    rfl

end Polish

section

variable {firstId firstId' : NodeId} {source source' : String} {trail trail' : Trail} {e e' : Expr}

/-- Two expressions, each anywhere in a source that is read without errors and has neither strings
nor infinite numbers: if they have the same reverse Polish form, then they are equal up to ids and
lines, once the parentheses that only group are taken away. -/
theorem ungrouped_eq_of_reversePolish (h : PlainSource firstId source)
    (h' : PlainSource firstId' source')
    (he : Reaches (.program (parse firstId (Lexer.tokens (scan source))).statements) trail
      (.expr e))
    (he' : Reaches (.program (parse firstId' (Lexer.tokens (scan source'))).statements) trail'
      (.expr e'))
    (htext : e.reversePolish = e'.reversePolish) :
    e.ungrouped.unplaced = e'.ungrouped.unplaced := by
  have hread := Polish.reads_words (h.legible.of_reaches he) []
  have hread' := Polish.reads_words (h'.legible.of_reaches he') []
  rw [htext, hread'] at hread
  exact (List.cons.inj (Option.some.inj hread)).1.symm

end

/-- The sum of `a` and a product, with ids from `id` on and everything but `a` on the given line. -/
def sumOfProduct (id line : Nat) (around : Expr → Expr) : Expr :=
  let name (id : NodeId) (text : String) (line : Nat) := Expr.var id ⟨.identifier, text, none, line⟩
  .binary (name id "a" 1) ⟨.plus, "+", none, line⟩
    (around (.binary (name (id + 1) "b" line) ⟨.star, "*", none, line⟩ (name (id + 2) "c" line)))

/-- The ids and the tokens of such a sum, and whether there are parentheses around the product. -/
def sumOfProduct? : List Stmt → Option (List NodeId × List Token × Bool)
  | [.expression (.binary (.var i a) plus (.grouping (.binary (.var j b) star (.var k c))))] =>
    some ([i, j, k], [a, plus, b, star, c], true)
  | [.expression (.binary (.var i a) plus (.binary (.var j b) star (.var k c)))] =>
    some ([i, j, k], [a, plus, b, star, c], false)
  | _ => none

theorem eq_of_sumOfProduct? {ss : List Stmt} {i j k : NodeId} {a plus b star c : Token}
    (grouped : Bool) (h : sumOfProduct? ss = some ([i, j, k], [a, plus, b, star, c], grouped)) :
    ss = [.expression (.binary (.var i a) plus
      ((if grouped then .grouping else id) (.binary (.var j b) star (.var k c))))] := by
  unfold sumOfProduct? at h
  split at h <;> cases h <;> rfl

/-- The parentheses around a product do not show. -/
theorem ungrouped_eq_of_reversePolish_product :
    PlainSource 0 "a + (b * c);" ∧ PlainSource 3 "a\n+ b * c;" ∧ ∃ trail trail',
      Reaches (.program (parse 0 (Lexer.tokens (scan "a + (b * c);"))).statements) trail
        (.expr (sumOfProduct 0 1 .grouping)) ∧
      Reaches (.program (parse 3 (Lexer.tokens (scan "a\n+ b * c;"))).statements) trail'
        (.expr (sumOfProduct 3 2 id)) ∧
      (sumOfProduct 0 1 .grouping).reversePolish = (sumOfProduct 3 2 id).reversePolish ∧
      (sumOfProduct 0 1 .grouping).ungrouped.unplaced =
        (sumOfProduct 3 2 id).ungrouped.unplaced := by
  have h : PlainSource 0 "a + (b * c);" := .of_bare (by decide +kernel) (by decide +kernel)
  have h' : PlainSource 3 "a\n+ b * c;" := .of_bare (by decide +kernel) (by decide +kernel)
  have hs : (parse 0 (Lexer.tokens (scan "a + (b * c);"))).statements =
      [.expression (sumOfProduct 0 1 .grouping)] :=
    eq_of_sumOfProduct? true (by decide +kernel)
  have hs' : (parse 3 (Lexer.tokens (scan "a\n+ b * c;"))).statements =
      [.expression (sumOfProduct 3 2 id)] :=
    eq_of_sumOfProduct? false (by decide +kernel)
  have hreaches : ∀ {ss : List Stmt} {e : Expr}, ss = [.expression e] →
      Reaches (.program ss) [(.stmt (.expression e), 0), (.program ss, 0)] (.expr e) := by
    rintro _ e rfl
    exact (Reaches.here.down rfl).down rfl
  have htext : (sumOfProduct 0 1 .grouping).reversePolish =
      (sumOfProduct 3 2 id).reversePolish := rfl
  exact ⟨h, h', _, _, hreaches hs, hreaches hs', htext,
    ungrouped_eq_of_reversePolish h h' (hreaches hs) (hreaches hs') htext⟩

end Lox
