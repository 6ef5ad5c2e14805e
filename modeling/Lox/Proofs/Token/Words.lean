import Lox.Proofs.Token.Scanner
import Mathlib.Data.List.Basic
import Mathlib.Tactic.Common

/-!
# Words of a source

A token that is a word, an identifier or a keyword, has the kind that its text says
(`Token.Spelled`). This is what keeps the names of a program apart from `this` and `super`, which
are bound under names of their own.
-/

namespace Lox

/-- A kind that a whole word can have. -/
def Kind.isWord (k : Kind) : Bool := k = .identifier || k ∈ keywords.map Prod.snd

/-- A word has the kind that its text says. -/
def Token.Spelled (t : Token) : Prop := t.kind.isWord → Kind.ofWord t.lexeme = t.kind

namespace Kind

theorem mem_keywords_of_ofWord {word : String} {k : Kind} (h : ofWord word = k)
    (hk : k ≠ .identifier) : (word, k) ∈ keywords := by
  unfold ofWord at h
  cases hl : keywords.lookup word with
  | none => exact absurd (by rw [← h, hl]; rfl) hk
  | some k' =>
    rw [hl] at h
    obtain ⟨l₁, l₂, heq, -⟩ := List.lookup_eq_some_iff.1 hl
    rw [heq, ← h]
    exact List.mem_append_right _ List.mem_cons_self

theorem eq_this_of_ofWord {word : String} (h : ofWord word = .thisWord) : word = "this" := by
  simpa [keywords] using mem_keywords_of_ofWord h (by decide)

theorem eq_super_of_ofWord {word : String} (h : ofWord word = .superWord) : word = "super" := by
  simpa [keywords] using mem_keywords_of_ofWord h (by decide)

theorem ne_this_of_ofWord {word : String} (h : ofWord word = .identifier) : word ≠ "this" := by
  intro hword
  subst hword
  exact absurd h (by decide)

theorem ne_super_of_ofWord {word : String} (h : ofWord word = .identifier) : word ≠ "super" := by
  intro hword
  subst hword
  exact absurd h (by decide)

end Kind

namespace Lexer

/-- A segment that is a word has the kind that its text says. -/
def Segment.Spelled (s : Segment) : Prop :=
  ∀ kind literal, s.shape = .lexeme kind literal → kind.isWord →
    Kind.ofWord (String.ofList s.text) = kind

theorem bare_spelled {kind : Kind} (h : kind.isWord = false) (text : List Char) :
    (bare kind text).Spelled := by
  intro _ _ hshape hw
  cases hshape
  exact absurd (h.symm.trans hw) Bool.false_ne_true

theorem isWord_of_punctuator? {c : Char} {kind : Kind} (h : punctuator? c = some kind) :
    kind.isWord = false := by
  unfold punctuator? at h
  split at h <;> cases h <;> rfl

theorem isWord_of_operator? {c : Char} {alone joined : Kind}
    (h : operator? c = some (alone, joined)) : alone.isWord = false ∧ joined.isWord = false := by
  unfold operator? at h
  split at h <;> cases h <;> exact ⟨rfl, rfl⟩

theorem first_spelled (c : Char) (cs : List Char) : (first c cs).1.Spelled := by
  -- Only names and keywords have something to show, and they come from the branch of letters.
  unfold first
  split
  · next h => exact bare_spelled (isWord_of_punctuator? h) _
  · next h =>
    obtain ⟨ha, hj⟩ := isWord_of_operator? h
    unfold operator
    split
    · exact bare_spelled hj _
    · exact bare_spelled ha _
  · split
    · intro _ _ hshape
      cases hshape
    split
    · unfold slash
      split
      · intro _ _ hshape
        cases hshape
      · exact bare_spelled rfl _
    split
    · unfold quoted
      split
      · intro _ _ hshape
        cases hshape
      · intro _ _ h hw
        cases h
        cases hw
    split
    · unfold number
      dsimp only
      split
      · intro _ _ h hw
        cases h
        cases hw
      · intro _ _ hshape
        cases hshape
    split
    · intro _ _ h _
      cases h
      rfl
    · intro _ _ hshape
      cases hshape

theorem segments_spelled (cs : List Char) : ∀ s ∈ segments cs, s.Spelled := by
  fun_induction segments cs with
  | case1 => exact List.forall_mem_nil _
  | case2 c cs ih => exact List.forall_mem_cons.2 ⟨first_spelled c cs, ih⟩

theorem items_spelled {line : Nat} {ss : List Segment} (h : ∀ s ∈ ss, s.Spelled) :
    ∀ t : Token, .ok t ∈ items line ss → t.Spelled := by
  induction ss generalizing line with
  | nil =>
    intro t ht hw
    cases List.mem_singleton.1 ht
    cases hw
  | cons s rest ih =>
    obtain ⟨hs, hrest⟩ := List.forall_mem_cons.1 h
    intro t ht
    rcases List.mem_append.1 ht with ht | ht
    · intro hw
      unfold Segment.item? at ht
      split at ht
      · cases ht
      · cases ht
      · next kind literal hshape =>
        cases List.mem_singleton.1 ht
        exact hs kind literal hshape hw
      · cases List.mem_singleton.1 ht
      · cases List.mem_singleton.1 ht
      · cases List.mem_singleton.1 ht
    · exact ih hrest t ht

end Lexer

/-- The words of a source have the kinds that they spell. -/
theorem scan_spelled (source : String) : ∀ t ∈ Lexer.tokens (scan source), t.Spelled := by
  intro t ht
  obtain ⟨item, hitem, hok⟩ := List.mem_filterMap.1 ht
  cases item with
  | error e => cases hok
  | ok t' =>
    cases hok
    rw [scan_eq_items] at hitem
    exact Lexer.items_spelled (Lexer.segments_spelled _) t hitem

end Lox
