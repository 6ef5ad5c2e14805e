import Lox.Token.Scanner
import Mathlib.Data.List.Basic
import Mathlib.Data.List.TakeWhile
import Mathlib.Tactic.Common

/-!
# The bytes of a text

A character of ASCII is one byte, which is its code, and the bytes of every other character lie
beyond ASCII. So a class of characters that does not tell the characters beyond ASCII apart cuts the
bytes of a text where it cuts the text (`takeWhile_codes`). This is what the loops of the scanner
live on: each of them ends before a byte of ASCII or at the end, hence at a boundary.
-/

namespace Lox

namespace Scanner

/-! ## Codes -/

/-- The bytes of a character, each read as the character with its code. -/
def codesOf (c : Char) : List Char := (String.utf8EncodeChar c).map Char.ofUInt8

/-- The bytes of a text, each read as the character with its code. -/
def codes (cs : List Char) : List Char := cs.flatMap codesOf

@[simp] theorem codes_nil : codes [] = [] := rfl

@[simp] theorem codes_cons (c : Char) (cs : List Char) : codes (c :: cs) = codesOf c ++ codes cs :=
  rfl

@[simp] theorem codes_append (cs ds : List Char) : codes (cs ++ ds) = codes cs ++ codes ds :=
  List.flatMap_append

@[simp] theorem length_codesOf (c : Char) : (codesOf c).length = c.utf8Size := by
  simp [codesOf]

theorem codesOf_ne_nil (c : Char) : codesOf c ≠ [] := by
  intro hnil
  have hlength := length_codesOf c
  rw [hnil] at hlength
  exact absurd hlength.symm (Nat.ne_of_gt c.utf8Size_pos)

theorem codesOf_ascii {c : Char} (h : c.toNat < 128) : codesOf c = [c] := by
  have hle : c.val ≤ 127 := UInt32.le_iff_toNat_le.2 (Nat.le_of_lt_succ h)
  rw [codesOf, String.utf8EncodeChar_eq_singleton (Char.utf8Size_eq_one_iff.2 hle)]
  refine congrArg (fun c => [c]) (Char.ext (UInt32.toNat_inj.1 ?_))
  show c.toNat % 256 = c.toNat
  omega

theorem le_toNat_of_mem_codesOf {c d : Char} (h : 128 ≤ c.toNat) (hd : d ∈ codesOf c) :
    128 ≤ d.toNat := by
  obtain ⟨b, hb, rfl⟩ := List.mem_map.1 hd
  show 128 ≤ b.toNat
  have hc : ¬c.val.toNat ≤ 127 := Nat.not_le.2 h
  unfold String.utf8EncodeChar at hb
  simp only [hc, if_false] at hb
  -- Every byte is a remainder with one of the leading marks of its place added to it.
  split at hb
  · simp only [List.mem_cons, List.not_mem_nil, or_false] at hb
    rcases hb with rfl | rfl <;> simp only [UInt8.toNat_ofNat'] <;> omega
  split at hb
  · simp only [List.mem_cons, List.not_mem_nil, or_false] at hb
    rcases hb with rfl | rfl | rfl <;> simp only [UInt8.toNat_ofNat'] <;> omega
  · simp only [List.mem_cons, List.not_mem_nil, or_false] at hb
    rcases hb with rfl | rfl | rfl | rfl <;> simp only [UInt8.toNat_ofNat'] <;> omega

/-- The first byte lies beyond ASCII where its character does. -/
theorem exists_codesOf_eq_cons (c : Char) :
    ∃ d ds, codesOf c = d :: ds ∧ (128 ≤ c.toNat → 128 ≤ d.toNat) := by
  obtain ⟨d, ds, hd⟩ := List.exists_cons_of_ne_nil (codesOf_ne_nil c)
  have hmem : d ∈ codesOf c := hd ▸ List.mem_cons_self
  exact ⟨d, ds, hd, fun hc => le_toNat_of_mem_codesOf hc hmem⟩

theorem toByteArray_eq (source : String) :
    source.toByteArray.data.toList.map Char.ofUInt8 = codes source.toList := by
  rw [← String.utf8Encode_toList, List.utf8Encode, List.data_toByteArray]
  simp only [List.map_flatMap]
  rfl

theorem codes_ascii {cs : List Char} (h : ∀ c ∈ cs, c.toNat < 128) : codes cs = cs := by
  induction cs with
  | nil => rfl
  | cons c cs ih =>
    obtain ⟨hc, hcs⟩ := List.forall_mem_cons.1 h
    rw [codes_cons, codesOf_ascii hc, ih hcs, List.singleton_append]

/-! ## Classes of characters -/

theorem ne_of_beyond {c x : Char} (h : 128 ≤ c.toNat) (hx : x.toNat < 128) : c ≠ x := by
  rintro rfl
  exact absurd h (Nat.not_le.2 hx)

theorem not_le_of_beyond {c last : Char} (h : 128 ≤ c.toNat) (hlast : last.toNat < 128) :
    ¬c.val ≤ last.val := by
  intro hle
  exact absurd (Nat.le_trans h (UInt32.le_iff_toNat_le.1 hle)) (Nat.not_le.2 hlast)

theorem isDigit_beyond (c : Char) (h : 128 ≤ c.toNat) : c.isDigit = false :=
  Bool.and_eq_false_iff.2 (.inr (decide_eq_false (not_le_of_beyond h (by decide))))

theorem startsWord_beyond (c : Char) (h : 128 ≤ c.toNat) : Lexer.startsWord c = false := by
  have hupper : c.isUpper = false :=
    decide_eq_false fun hle => not_le_of_beyond h (by decide) hle.2
  have hlower : c.isLower = false :=
    Bool.and_eq_false_iff.2 (.inr (decide_eq_false (not_le_of_beyond h (by decide))))
  have hunderscore : c ≠ '_' := ne_of_beyond h (by decide)
  show (c.isUpper || c.isLower || decide (c = '_')) = false
  rw [hupper, hlower, decide_eq_false hunderscore]
  rfl

theorem inWord_beyond (c : Char) (h : 128 ≤ c.toNat) : Lexer.inWord c = false := by
  have hstarts := startsWord_beyond c h
  have hdigit := isDigit_beyond c h
  unfold Lexer.startsWord at hstarts
  unfold Lexer.inWord Char.isAlphanum
  grind

theorem punctuator?_beyond {c : Char} (h : 128 ≤ c.toNat) : Lexer.punctuator? c = none := by
  unfold Lexer.punctuator?
  split <;> first | rfl | exact absurd h (by decide)

theorem operator?_beyond {c : Char} (h : 128 ≤ c.toNat) : Lexer.operator? c = none := by
  unfold Lexer.operator?
  split <;> first | rfl | exact absurd h (by decide)

section

variable {p : Char → Bool} {beyond : Bool}

/-- A class that takes all characters beyond ASCII, or none, stops at a boundary. -/
theorem takeWhile_codes (hp : ∀ c : Char, 128 ≤ c.toNat → p c = beyond) (cs : List Char) :
    (codes cs).takeWhile p = codes (cs.takeWhile p) := by
  induction cs with
  | nil => rfl
  | cons c cs ih =>
    rcases Nat.lt_or_ge c.toNat 128 with hc | hc
    · rw [codes_cons, codesOf_ascii hc, List.singleton_append]
      by_cases hpc : p c
      · rw [List.takeWhile_cons_of_pos hpc, List.takeWhile_cons_of_pos hpc, ih, codes_cons,
          codesOf_ascii hc, List.singleton_append]
      · rw [List.takeWhile_cons_of_neg hpc, List.takeWhile_cons_of_neg hpc, codes_nil]
    -- A character beyond ASCII is taken or left as a whole: the class treats its bytes alike.
    · cases beyond with
      | true =>
        have hcodes : ∀ d ∈ codesOf c, p d = true := fun d hd =>
          hp d (le_toNat_of_mem_codesOf hc hd)
        rw [codes_cons, List.takeWhile_append_of_pos hcodes, ih,
          List.takeWhile_cons_of_pos (hp c hc), codes_cons]
      | false =>
        obtain ⟨d, ds, hd, hbeyond⟩ := exists_codesOf_eq_cons c
        rw [codes_cons, hd, List.cons_append, List.takeWhile_cons_of_neg,
          List.takeWhile_cons_of_neg, codes_nil]
        · simp [hp c hc]
        · simp [hp d (hbeyond hc)]

theorem count_codes {x : Char} (hx : x.toNat < 128) (cs : List Char) :
    (codes cs).count x = cs.count x := by
  induction cs with
  | nil => rfl
  | cons c cs ih =>
    rw [codes_cons, List.count_append, ih]
    rcases Nat.lt_or_ge c.toNat 128 with hc | hc
    · rw [codesOf_ascii hc, ← List.count_append, List.singleton_append]
    · have hnone : (codesOf c).count x = 0 := List.count_eq_zero.2 fun hmem =>
        absurd (le_toNat_of_mem_codesOf hc hmem) (Nat.not_le.2 hx)
      rw [hnone, List.count_cons_of_ne (ne_of_beyond hc hx), Nat.zero_add]

end

/-! ## What is left of a source -/

variable {s : Scanner}

/-- The bytes that have not been read. -/
def rest (s : Scanner) : List Char := (codes s.src.toList).drop s.curr

theorem len_eq (s : Scanner) : s.len = (codes s.src.toList).length := by
  rw [← toByteArray_eq]
  simp [len]

theorem map_byte? (s : Scanner) (i : Nat) :
    (s.byte? i).map Char.ofUInt8 = (codes s.src.toList)[i]? := by
  rw [← toByteArray_eq]
  unfold byte?
  split
  · next hlt => simp [String.getUTF8Byte, ByteArray.getElem_eq_getElem_data, hlt]
  · next hle => simp [hle]

theorem map_byte?_curr (s : Scanner) : (s.byte? s.curr).map Char.ofUInt8 = s.rest.head? := by
  rw [map_byte?, rest, List.head?_drop]

theorem peek_eq (s : Scanner) : Char.ofUInt8 s.peek = s.rest.head?.getD '\x00' := by
  rw [← map_byte?_curr, peek]
  cases s.byte? s.curr <;> rfl

theorem peekNext_eq (s : Scanner) : Char.ofUInt8 s.peekNext = s.rest.tail.head?.getD '\x00' := by
  rw [rest, List.tail_drop, List.head?_drop, ← map_byte?, peekNext]
  cases s.byte? (s.curr + 1) <;> rfl

theorem isAtEnd_iff : s.isAtEnd ↔ s.rest = [] := by
  rw [isAtEnd, decide_eq_true_iff, rest, List.drop_eq_nil_iff, len_eq]

/-- The scanner after a number of bytes and newlines. -/
def further (s : Scanner) (bytes newlines : Nat) : Scanner :=
  { s with curr := s.curr + bytes, line := s.line + newlines }

@[simp] theorem further_zero (s : Scanner) : s.further 0 0 = s := rfl

@[simp] theorem further_further (s : Scanner) (m k m' k' : Nat) :
    (s.further m k).further m' k' = s.further (m + m') (k + k') := by
  simp [further, Nat.add_assoc]

@[simp] theorem rest_further (s : Scanner) (m k : Nat) : (s.further m k).rest = s.rest.drop m := by
  simp [further, rest, List.drop_drop]

theorem advance_eq_none (h : s.advance = none) : s.rest = [] := by
  have hnone := map_byte?_curr s
  rw [Option.map_eq_none_iff.1 h] at hnone
  exact List.head?_eq_none_iff.1 hnone.symm

theorem rest_of_advance {b : UInt8} {s' : Scanner} (h : s.advance = some (b, s')) :
    s.rest = Char.ofUInt8 b :: s'.rest ∧ s' = s.further 1 0 := by
  obtain ⟨b', hb, heq⟩ := Option.map_eq_some_iff.1 h
  cases heq
  have hhead := map_byte?_curr s
  rw [hb] at hhead
  obtain ⟨ds, hds⟩ := List.head?_eq_some_iff.1 hhead.symm
  have hfurther : ({ s with curr := s.curr + 1 } : Scanner) = s.further 1 0 := rfl
  rw [hfurther, rest_further, hds]
  exact ⟨rfl, rfl⟩

theorem advance_of_rest {d : Char} {ds : List Char} (h : s.rest = d :: ds) :
    ∃ b, Char.ofUInt8 b = d ∧ s.advance = some (b, s.further 1 0) := by
  cases hadvance : s.advance with
  | none => rw [advance_eq_none hadvance] at h; cases h
  | some r =>
    obtain ⟨hrest, heq⟩ := rest_of_advance hadvance
    rw [hrest] at h
    exact ⟨r.1, (List.cons.inj h).1, congrArg (fun s' => some (r.1, s')) heq⟩

/-! ## Loops -/

theorem matchByte_eq (s : Scanner) (c : Char) :
    s.matchByte c =
      some (if s.rest.head? = some c then (true, s.further 1 0) else (false, s)) := by
  unfold matchByte
  rw [peek_eq]
  cases hrest : s.rest with
  | nil => simp [isAtEnd_iff.2 hrest]
  | cons d ds =>
    have hend : s.isAtEnd = false := Bool.eq_false_iff.2 fun hend => by
      rw [isAtEnd_iff.1 hend] at hrest
      cases hrest
    obtain ⟨b, -, hadvance⟩ := advance_of_rest hrest
    by_cases hd : d = c <;> simp [hend, hadvance, hd]

theorem advanceWhile_eq {p : Char → Bool} (hend : p '\x00' = false) (s : Scanner) :
    s.advanceWhile p = some (s.further (s.rest.takeWhile p).length 0) := by
  fun_induction advanceWhile p s with
  | case1 s hp hadvance =>
    rw [peek_eq, advance_eq_none hadvance] at hp
    exact absurd hp (Bool.eq_false_iff.1 hend)
  | case2 s hp b s' hadvance ih =>
    obtain ⟨hrest, rfl⟩ := rest_of_advance hadvance
    have hb : p (Char.ofUInt8 b) := by
      rw [peek_eq, hrest] at hp
      exact hp
    rw [ih, hrest, List.takeWhile_cons_of_pos hb, further_further, List.length_cons, Nat.add_comm 1]
  | case3 s hp =>
    rw [peek_eq] at hp
    cases hrest : s.rest with
    | nil => rfl
    | cons d ds =>
      have hd : ¬p d := by
        rw [hrest] at hp
        exact hp
      rw [List.takeWhile_cons_of_neg hd]
      rfl

theorem advanceString_eq (s : Scanner) :
    s.advanceString =
      some (s.further (s.rest.takeWhile (· ≠ '"')).length
        ((s.rest.takeWhile (· ≠ '"')).count '\n')) := by
  fun_induction advanceString s with
  | case1 s hgo hadvance =>
    rw [isAtEnd_iff.2 (advance_eq_none hadvance)] at hgo
    exact absurd hgo (by simp)
  | case2 s hgo b s' hadvance hline ih =>
    obtain ⟨hrest, rfl⟩ := rest_of_advance hadvance
    -- A newline is counted when it is passed, before the loop goes on.
    have hfurther : ({ s.further 1 0 with line := (s.further 1 0).line + 1 } : Scanner) =
        s.further 1 1 := rfl
    rw [hfurther, rest_further] at ih
    rw [hfurther, ih, hrest, hline, further_further, rest_further]
    simp [Nat.add_comm]
  | case3 s hgo b s' hadvance hline ih =>
    obtain ⟨hrest, rfl⟩ := rest_of_advance hadvance
    have hquote : Char.ofUInt8 b ≠ '"' := by
      rw [peek_eq, hrest] at hgo
      simpa using (Bool.and_eq_true_iff.1 hgo).2
    rw [ih, hrest, further_further]
    simp [hquote, hline, Nat.add_comm]
  | case4 s hstop =>
    rw [peek_eq] at hstop
    -- The loop stops at a quote or at the end, where no byte is left.
    cases hrest : s.rest with
    | nil => rfl
    | cons d ds =>
      have hend : s.isAtEnd = false := Bool.eq_false_iff.2 fun hend => by
        rw [isAtEnd_iff.1 hend] at hrest
        cases hrest
      simp [hrest, hend] at hstop
      simp [hstop]

theorem drop_of_byte? {i : Nat} {b : UInt8} (h : s.byte? i = some b) :
    (codes s.src.toList).drop i = Char.ofUInt8 b :: (codes s.src.toList).drop (i + 1) := by
  have hi := map_byte? s i
  rw [h] at hi
  obtain ⟨hlt, hget⟩ := List.getElem?_eq_some_iff.1 hi.symm
  rw [List.drop_eq_getElem_cons hlt, hget]

theorem find?_eq (s : Scanner) (c : Char) (i : Nat) :
    s.find? c i =
      if c ∈ (codes s.src.toList).drop i then
        some (i + (((codes s.src.toList).drop i).takeWhile (· ≠ c)).length)
      else none := by
  -- Along the bytes from `i` on.
  fun_induction find? s c i with
  | case1 i hb =>
    have hi := map_byte? s i
    rw [hb] at hi
    rw [List.drop_eq_nil_of_le (List.getElem?_eq_none_iff.1 hi.symm)]
    rfl
  | case2 i b hb heq =>
    rw [drop_of_byte? hb, heq]
    simp
  | case3 i b hb hne ih =>
    rw [ih, drop_of_byte? hb]
    have hmem : c ≠ Char.ofUInt8 b := fun heq => hne heq.symm
    simp [hne, hmem, Nat.add_assoc, Nat.add_comm 1]

theorem skipLine_eq (h : s.curr ≤ s.len) :
    s.skipLine = some (s.further (s.rest.takeWhile (· ≠ '\n')).length 0) := by
  have hfind : s.find? '\n' s.curr =
      if '\n' ∈ s.rest then some (s.curr + (s.rest.takeWhile (· ≠ '\n')).length) else none :=
    find?_eq s '\n' s.curr
  unfold skipLine
  rw [if_pos h, hfind]
  split
  · next i hi =>
    split at hi <;> cases hi
    rfl
  · next hi =>
    split at hi
    · cases hi
    · next hnone =>
      have hall : s.rest.takeWhile (· ≠ '\n') = s.rest :=
        List.takeWhile_eq_self_iff.2 fun d hd => by
          simpa using ne_of_mem_of_not_mem hd hnone
      -- No line feed is left, so the line is the rest of the source.
      have hlen : s.curr + s.rest.length = s.len := by
        rw [rest, List.length_drop, ← len_eq]
        omega
      rw [hall]
      unfold further
      rw [hlen]
      rfl

end Scanner

end Lox
