import Qemu.Json.NumberGrammar
import Qemu.Json.Parser
import Qemu.Util.UnicodeExact

namespace Qemu.Json

open Unicode List Bool

/-- What is left of a string: a body and the closing quote. -/
def Follow (quote : UInt8) (ptr : List UInt8) : Prop := ∃ body, Body quote body ∧ ptr = body ++ [quote]

variable {quote c : UInt8} {ptr rest : List UInt8}

theorem Follow.cons (follow : Follow quote ptr) : ∃ c rest, ptr = c :: rest := by
  obtain ⟨body, -, rfl⟩ := follow
  cases body with
  | nil => exact ⟨_, _, rfl⟩
  | cons c rest => exact ⟨_, _, rfl⟩

/-- A character that is neither the quote nor a backslash. -/
theorem Follow.plain (follow : Follow quote (c :: rest)) (notQuote : c ≠ quote)
    (notEscape : c ≠ reverseSolidus) : inString c = true ∧ Follow quote rest := by
  obtain ⟨body, inside, split⟩ := follow
  cases inside with
  | nil =>
    cases split
    exact absurd rfl notQuote
  | plain isIn _ _ more =>
    cases split
    exact ⟨isIn, _, more, rfl⟩
  | escape =>
    cases split
    exact absurd rfl notEscape

theorem Follow.escape (follow : Follow quote (reverseSolidus :: rest))
    (notQuote : reverseSolidus ≠ quote) : ∃ c more, rest = c :: more ∧ Follow quote more := by
  obtain ⟨body, inside, split⟩ := follow
  cases inside with
  | nil =>
    cases split
    exact absurd rfl notQuote
  | plain _ _ notEscape _ =>
    cases split
    exact absurd rfl notEscape
  | escape _ more =>
    cases split
    exact ⟨_, _, rfl, _, more, rfl⟩

theorem Follow.drop (isQuote : quote = quotationMark ∨ quote = apostrophe)
    (follow : Follow quote (bytes ++ rest)) (high : ∀ b ∈ bytes, isTail b = true) : Follow quote rest := by
  induction bytes with
  | nil => exact follow
  | cons b more ih => ?_
  obtain ⟨low, others⟩ := forall_mem_cons.mp high
  have notQuote : b ≠ quote := by
    rintro rfl
    rcases isQuote with rfl | rfl <;> exact absurd low (by decide)
  have notEscape : b ≠ reverseSolidus := by
    rintro rfl
    exact absurd low (by decide)
  exact ih (follow.plain notQuote notEscape).2 others

section

variable (isQuote : quote = quotationMark ∨ quote = apostrophe)
include isQuote

theorem hexDigit_ne (isHex : hexDigit c = some value) : c ≠ quote ∧ c ≠ reverseSolidus := by
  constructor
  · rintro rfl
    rcases isQuote with rfl | rfl <;> cases isHex
  · rintro rfl
    cases isHex

theorem Follow.hex (follow : Follow quote ptr)
    (read : cvtHex k cp ptr = some value) : Follow quote (ptr.drop k) := by
  induction k generalizing ptr cp with
  | zero => exact follow
  | succ k ih => ?_
  obtain ⟨c, rest, rfl⟩ := follow.cons
  rw [cvtHex] at read
  cases isHex : hexDigit ((c :: rest).headD 0) with
  | none =>
    rw [isHex] at read
    cases read
  | some digit =>
    rw [isHex] at read
    obtain ⟨notQuote, notEscape⟩ := hexDigit_ne isQuote isHex
    exact ih (follow.plain notQuote notEscape).2 read

theorem Follow.unicodeEscape (follow : Follow quote ptr)
    (read : unicodeEscape ptr = (some cp, rest)) : Follow quote rest := by
  have notQuote : reverseSolidus ≠ quote := by
    rcases isQuote with rfl | rfl <;> decide
  rw [Json.unicodeEscape] at read
  cases first : cvt4hex ptr with
  | none =>
    rw [first] at read
    cases read
  | some high => ?_
  rw [first] at read
  have after := follow.hex isQuote first
  dsimp only at read
  split_ifs at read with surrogate
  · cases second : cvt4hex ((ptr.drop 4).drop 2) with
    | none =>
      rw [second] at read
      cases read
    | some low => ?_
    rw [second] at read
    dsimp only at read
    split_ifs at read
    · cases read
      generalize ptr.drop 4 = more at after surrogate second
      obtain ⟨c, tail, rfl⟩ := after.cons
      obtain rfl : c = reverseSolidus := surrogate.2.2.1
      obtain ⟨c', tail', rfl, after'⟩ := after.escape notQuote
      have done : Follow quote (tail'.drop 4) := after'.hex isQuote second
      exact done
    · cases read
  · cases read
    exact after

end

theorem unicodeEscape_length (ptr : List UInt8) : (unicodeEscape ptr).2.length ≤ ptr.length := by
  rw [unicodeEscape]
  cases cvt4hex ptr with
  | none =>
    rw [length_drop]
    omega
  | some high => ?_
  dsimp only
  split_ifs
  · cases cvt4hex ((ptr.drop 4).drop 2) with
    | none =>
      rw [length_drop]
      omega
    | some low => ?_
    dsimp only
    split_ifs
    · rw [length_drop, length_drop]
      omega
    · rw [length_drop]
      omega
  · rw [length_drop]
    omega

theorem parseChars_ok (isQuote : quote = quotationMark ∨ quote = apostrophe) {fuel : Nat}
    {str : List UInt8}
    (follow : Follow quote ptr) (enough : ptr.length < fuel) :
    ∃ result, parseChars quote fuel ptr str = .ok result := by
  have notQuote : reverseSolidus ≠ quote := by
    rcases isQuote with rfl | rfl <;> decide
  induction fuel generalizing ptr str with
  | zero => omega
  | succ fuel ih => ?_
  obtain ⟨c, rest, rfl⟩ := follow.cons
  rw [length_cons] at enough
  rw [parseChars, headD_cons]
  by_cases ends : c = quote
  · rw [if_pos ends]
    exact ⟨_, rfl⟩
  rw [if_neg ends]
  by_cases isEscape : c = reverseSolidus
  · subst isEscape
    obtain ⟨e, more, rfl, after⟩ := follow.escape notQuote
    rw [length_cons] at enough
    simp only [tail_cons, headD_cons, drop_succ_cons, drop_zero]
    cases simpleEscape e with
    | some plain => exact ih after (by omega)
    | none => ?_
    by_cases isU : e = 'u'.toUInt8
    · rw [if_pos isU]
      have shorter := unicodeEscape_length more
      cases escaped : unicodeEscape more with
      | mk cp rest =>
        rw [escaped] at shorter
        cases cp with
        | none => exact ⟨_, rfl⟩
        | some cp =>
          cases modUtf8Encode (some cp) with
          | none => exact ⟨_, rfl⟩
          | some bytes => exact ih (after.unicodeEscape isQuote escaped) (by omega)
    · rw [if_neg isU]
      exact ⟨_, rfl⟩
  · obtain ⟨inside, after⟩ := follow.plain ends isEscape
    rw [if_neg (by rintro rfl; cases inside), if_neg isEscape]
    rw [codepoint_eq]
    cases decodes : decoded (sequence 6 (c :: rest)) with
    | none => exact ⟨_, rfl⟩
    | some cp => ?_
    obtain ⟨⟨rest', same⟩, -, -, high⟩ := sequence_spec 6 (c :: rest)
    dsimp only
    rw [encode_sequence decodes]
    cases taken : sequence 6 (c :: rest) with
    | nil =>
      rw [taken] at decodes
      cases decodes
    | cons first bytes => ?_
    rw [taken] at same high
    rw [cons_append, cons.injEq] at same
    obtain ⟨rfl, rfl⟩ := same
    rw [length_append] at enough
    rw [← cons_append, drop_left]
    exact ih (after.drop isQuote high) (by omega)

theorem parseString_ok (text : StringText str) (type : Code) (ctxt : JSONParserContext) :
    ∃ result message, parseString ⟨type, str⟩ ctxt = .ok (result, if result.isSome then ctxt
    else ctxt.parseError message) := by
  obtain @⟨quote, body, isQuote, inside⟩ := text
  have follow : Follow quote (body ++ [quote]) := ⟨body, inside, rfl⟩
  obtain ⟨⟨result, message⟩, parsed⟩ :=
    @parseChars_ok quote (body ++ [quote]) isQuote ((quote :: body ++ [quote]).length + 1) [] follow
      (by simp)
  refine ⟨result, message, ?_⟩
  rw [parseString]
  rw [cons_append, headD_cons, if_pos isQuote, tail_cons, ← cons_append, parsed]
  cases result <;> rfl

theorem digit_iff : digit c = true ↔ 0x30 ≤ c.toNat ∧ c.toNat ≤ 0x39 := by
  rw [digit, between, and_eq_true, decide_eq_true_eq, decide_eq_true_eq]
  rfl

theorem intPart_digits (isInt : IntPart int) : Digits int := by
  cases isInt with
  | zero => exact ⟨cons_ne_nil _ _, forall_mem_singleton.mpr rfl⟩
  | @digits first rest nonzero more =>
    refine ⟨cons_ne_nil _ _, forall_mem_cons.mpr ⟨?_, more⟩⟩
    rw [between, and_eq_true, decide_eq_true_eq, decide_eq_true_eq] at nonzero
    have low : 0x31 ≤ first.toNat := nonzero.1
    exact digit_iff.mpr ⟨by omega, nonzero.2⟩

theorem digit_not_space (isDigit : digit c = true) : isSpace c = false := by
  have range := digit_iff.mp isDigit
  have above : ∀ n, n < 0x30 → c ≠ UInt8.ofNat n := by
    rintro n small rfl
    rw [UInt8.toNat_ofNat'] at range
    omega
  rw [isSpace, or_eq_false_iff, and_eq_false_iff]
  refine ⟨decide_eq_false (above 0x20 (by decide)), .inr (decide_eq_false ?_)⟩
  rw [UInt8.le_iff_toNat_le]
  have top : (0x0D : UInt8).toNat = 13 := rfl
  omega

variable {digits : List UInt8}

theorem strtoDecimal_eq (isMinus : minus = [] ∨ minus = ['-'.toUInt8]) (isDigits : Digits digits) :
    strtoDecimal (minus ++ digits) = some (decide (minus ≠ []), decimal digits, []) := by
  obtain ⟨nonempty, all⟩ := isDigits
  have takes : digits.takeWhile digit = digits := takeWhile_eq_self_iff.mpr all
  have drops : digits.dropWhile digit = [] := dropWhile_eq_nil_iff.mpr all
  rcases isMinus with rfl | rfl
  · obtain ⟨first, rest, rfl⟩ := exists_cons_of_ne_nil nonempty
    have isDigit := all first mem_cons_self
    have unspaced : (first :: rest).dropWhile isSpace = first :: rest := by
      rw [dropWhile_cons, digit_not_space isDigit]
      rfl
    simp [strtoDecimal, unspaced, digit_ne isDigit, takes, drops]
  · have unspaced : ('-'.toUInt8 :: digits).dropWhile isSpace = '-'.toUInt8 :: digits := rfl
    simp [strtoDecimal, unspaced, takes, drops, nonempty]

theorem parseInteger_eq (isDigits : Digits digits) :
    parseInteger digits = .ok (if decimal digits < 2 ^ 63 then .i64 (BitVec.ofNat 64 (decimal digits))
      else if decimal digits < 2 ^ 64 then .u64 (BitVec.ofNat 64 (decimal digits))
      else .double digits) := by
  have read := strtoDecimal_eq (.inl rfl) isDigits
  rw [nil_append] at read
  obtain ⟨first, rest, rfl⟩ := exists_cons_of_ne_nil isDigits.1
  have unsigned := (digit_ne (isDigits.2 first mem_cons_self)).1
  rw [parseInteger, qemuStrtoi64, qemuStrtou64, read]
  by_cases small : decimal (first :: rest) < 2 ^ 63
  · simp [small, -Nat.reducePow]
  · by_cases fits : decimal (first :: rest) < 2 ^ 64 <;> simp [small, fits, unsigned, -Nat.reducePow]

theorem parseInteger_minus (isDigits : Digits digits) :
    parseInteger ('-'.toUInt8 :: digits) = .ok (if decimal digits ≤ 2 ^ 63 then
    .i64 (-(BitVec.ofNat 64 (decimal digits)))
      else .double ('-'.toUInt8 :: digits)) := by
  have read := strtoDecimal_eq (.inr rfl) isDigits
  rw [singleton_append] at read
  rw [parseInteger, qemuStrtoi64, qemuStrtou64, read]
  by_cases small : decimal digits ≤ 2 ^ 63 <;> simp [small, -Nat.reducePow]

theorem parseInteger_ok (number : NumberOf .integer text) : ∃ value, parseInteger text = .ok value := by
  obtain ⟨⟨minus, int, frac, exp, rfl, isMinus, isInt, _, _⟩, kind⟩ := number
  have none : frac = [] ∧ exp = [] := by
    by_contra tail
    have float : tailKind frac exp = .float := if_neg tail
    cases kind.trans float
  obtain ⟨rfl, rfl⟩ := none
  rw [append_nil, append_nil]
  rcases isMinus with rfl | rfl
  · exact ⟨_, parseInteger_eq (intPart_digits isInt)⟩
  · exact ⟨_, parseInteger_minus (intPart_digits isInt)⟩

end Qemu.Json
