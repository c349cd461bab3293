import Mathlib.Data.List.TakeWhile
import Qemu.Util.Unicode

namespace Qemu.Unicode

open List Option Nat

theorem toUInt8_of_eq {n : Nat} (same : c.toNat = n) : n.toUInt8 = c := same ▸ UInt8.ofNat_toNat

theorem shift_or (high n : Nat) (small : low < 2 ^ n) : high <<< n ||| low = high * 2 ^ n + low := by
  rw [← shiftLeft_add_eq_or_of_lt small, shiftLeft_eq]

/-- What a first byte announces: the number of continuation bytes, and its part of the codepoint. -/
def announced (byte : Nat) : Option (Nat × Nat) :=
  if byte = 0 then none
  else if byte < 0x80 then some (0, byte)
  else if byte < 0xC0 then none
  else if byte < 0xE0 then some (1, byte - 0xC0)
  else if byte < 0xF0 then some (2, byte - 0xE0)
  else if byte < 0xF8 then some (3, byte - 0xF0)
  else if byte < 0xFC then some (4, byte - 0xF8)
  else if byte < 0xFE then some (5, byte - 0xFC)
  else none

variable {byte : Nat}

theorem announced_iff {k bits : Nat} : announced byte = some (k, bits) ↔
    k = 0 ∧ bits = byte ∧ 0 < byte ∧ byte < 0x80 ∨ k = 1 ∧ byte = 0xC0 + bits ∧ bits < 0x20 ∨
    k = 2 ∧ byte = 0xE0 + bits ∧ bits < 0x10 ∨ k = 3 ∧ byte = 0xF0 + bits ∧ bits < 0x08 ∨
    k = 4 ∧ byte = 0xF8 + bits ∧ bits < 0x04 ∨ k = 5 ∧ byte = 0xFC + bits ∧ bits < 0x02 := by
  rw [announced]
  split_ifs <;> simp only [some.injEq, Prod.mk.injEq, false_iff] <;> omega

theorem announced_long (low : 0xC0 ≤ byte) (high : byte < 0xFE) :
    byte &&& 0x40 ≠ 0 ∧ 1 < (leadingOnes byte 8 0x80).1 ∧ (leadingOnes byte 8 0x80).1 < 7 ∧
      announced byte = some ((leadingOnes byte 8 0x80).1 - 1,
      byte &&& ((leadingOnes byte 8 0x80).2 - 1)) := by
  interval_cases byte <;> decide

theorem continuation_byte (small : byte < 0x100) : byte &&& 0xC0 = 0x80 ↔ 0x80 ≤ byte ∧ byte < 0xC0 := by
  interval_cases byte <;> decide

theorem continuation_bits (low : 0x80 ≤ byte) (high : byte < 0xC0) : byte &&& 0x40 = 0 ∧
    byte &&& 0x3F = byte - 0x80 := by
  interval_cases byte <;> decide

/-- A continuation byte. -/
def isTail (byte : UInt8) : Bool := 0x80 ≤ byte.toNat && byte.toNat < 0xC0

/-- The continuation bytes at the start of a string, at most `m`. -/
def tails (m : Nat) (p : List UInt8) : List UInt8 := (p.take m).takeWhile isTail

/-- The value of continuation bytes, below what is already read. -/
def extend (cp : Nat) (bytes : List UInt8) : Nat :=
  bytes.foldl (fun cp byte => cp * 64 + (byte.toNat - 0x80)) cp

variable {cp : Nat} {first : UInt8} {p rest : List UInt8}

/-- The loop takes the continuation bytes that are there. -/
theorem continuation_eq (n k i cp : Nat) (p : List UInt8) : continuation n k i cp p =
    (if (tails (min k (n - i)) p).length = k then some (extend cp (tails (min k (n - i)) p)) else none,
      p.drop (tails (min k (n - i)) p).length) := by
  induction k generalizing i cp p with
  | zero => simp [tails, continuation, extend]
  | succ k ih => ?_
  rw [continuation]
  cases p with
  | nil => simp [tails, head]
  | cons b more => ?_
  by_cases inside : i < n
  · obtain ⟨left, rest⟩ : ∃ left, n - i = left + 1 := ⟨n - (i + 1), by omega⟩
    have left' : n - (i + 1) = left := by omega
    have isByte := continuation_byte b.toNat_lt
    by_cases tail : isTail b = true
    · have range : 0x80 ≤ b.toNat ∧ b.toNat < 0xC0 := by simpa [isTail] using tail
      have bits := (continuation_bits range.1 range.2).2
      have small : b.toNat - 0x80 < 2 ^ 6 := by omega
      simp [inside, head, isByte.mpr range, bits, shift_or _ 6 small, ih, rest, left', tails, tail, extend]
    · have none : ¬ (b.toNat &&& 0xC0 = 0x80) := fun bits => tail (by simpa [isTail] using isByte.mp bits)
      simp [inside, head, none, rest, tails, tail]
  · simp [inside, tails, Nat.sub_eq_zero_of_le (not_lt.mp inside)]

/-- A codepoint that is in the Unicode range, no noncharacter and no surrogate. -/
def ValidCodepoint (codepoint : Int) : Prop :=
  0 ≤ codepoint ∧ codepoint ≤ 0x10FFFF ∧ ¬ (0xFDD0 ≤ codepoint ∧ codepoint ≤ 0xFDEF) ∧
    codepoint % 0x10000 < 0xFFFE ∧ ¬ (0xD800 ≤ codepoint ∧ codepoint ≤ 0xDFFF)

theorem isValidCodepoint_iff : isValidCodepoint cp = true ↔ ValidCodepoint cp := by
  have bits : cp &&& 0xFFFE = 0xFFFE ↔ 0xFFFE ≤ cp % 0x10000 := by
    have low : cp &&& 0xFFFE = cp % 0x10000 &&& 0xFFFE := by
      rw [← and_two_pow_sub_one_eq_mod cp 16, Nat.and_assoc]
      rfl
    rw [low]
    refine ⟨fun all => all ▸ and_le_left, fun high => ?_⟩
    have last : cp % 0x10000 = 0xFFFE ∨ cp % 0x10000 = 0xFFFF := by omega
    rcases last with last | last <;> rw [last] <;> rfl
  simp only [isValidCodepoint, bits, ValidCodepoint]
  split_ifs <;> simp <;> omega

instance (codepoint : Int) : Decidable (ValidCodepoint codepoint) := inferInstanceAs (Decidable (_ ∧ _))

/-- The codepoint of a sequence, as documented: the first byte announces the others, and what they
encode is a valid codepoint that needs as many bytes, or U+0000 in two. -/
def decoded : List UInt8 → Option Nat
  | [] => none
  | first :: bytes =>
    match announced first.toNat with
    | none => none
    | some (k, bits) =>
      if bytes.length = k ∧ ValidCodepoint (extend bits bytes) ∧
          (k = 0 ∨ minCp (k + 1) ≤ extend bits bytes ∨ extend bits bytes = 0 ∧ k = 1)
        then some (extend bits bytes) else none

/-- The sequence at the start of a string: nothing, or the first byte and the continuation bytes
that are announced and there. -/
def sequence (n : Nat) : List UInt8 → List UInt8
  | [] => []
  | first :: p =>
    if n = 0 ∨ first.toNat = 0 then []
      else first :: tails (min ((announced first.toNat).elim 0 Prod.fst) (n - 1)) p

theorem codepoint_eq (s : List UInt8) (n : Nat) :
    modUtf8Codepoint s n = .ok (decoded (sequence n s), s.drop (sequence n s).length) := by
  cases s with
  | nil => rfl
  | cons first p => ?_
  simp only [modUtf8Codepoint, sequence]
  by_cases empty : n = 0 ∨ first.toNat = 0
  · rw [if_pos empty, if_pos empty]
    rfl
  rw [if_neg empty, if_neg empty]
  by_cases long : 0xC0 ≤ first.toNat ∧ first.toNat < 0xFE
  · obtain ⟨bit, low, high, lead⟩ := announced_long long.1 long.2
    rw [if_neg (by omega), if_neg (by omega), if_neg bit, if_pos ⟨low, high⟩, continuation_eq,
      decoded, lead, Option.elim]
    generalize leadingOnes first.toNat 8 0x80 = ones at low ⊢
    dsimp only
    generalize tails (min (ones.1 - 1) (n - 1)) p = bytes
    by_cases whole : bytes.length = ones.1 - 1
    · have length : ones.1 = bytes.length + 1 := by omega
      have some : bytes.length ≠ 0 := by omega
      rw [if_pos whole, length]
      simp only [Nat.add_sub_cancel, ← isValidCodepoint_iff]
      generalize extend (first.toNat &&& (ones.2 - 1)) bytes = cp
      by_cases invalid : isValidCodepoint cp = false
      · rw [if_pos invalid, if_neg (by simp [invalid])]
        rfl
      by_cases overlong : cp < minCp (bytes.length + 1) ∧ ¬ (cp = 0 ∧ bytes.length + 1 = 2)
      · rw [if_neg invalid, if_pos overlong, if_neg (by omega)]
        rfl
      · rw [if_neg invalid, if_neg overlong, if_pos ⟨trivial, by simpa using invalid, by omega⟩]
        rfl
    · rw [if_neg whole, if_neg fun valid => whole valid.1]
      rfl
  by_cases ascii : first.toNat < 0x80
  · have one : announced first.toNat = some (0, first.toNat) := by
      rw [announced, if_neg (by omega), if_pos ascii]
    have valid : ValidCodepoint first.toNat := by
      rw [ValidCodepoint]
      omega
    simp [one, ascii, tails, decoded, extend, valid]
  · have none : announced first.toNat = none := by
      rw [announced, if_neg (by omega), if_neg ascii]
      split_ifs <;> first | omega | rfl
    rw [if_neg ascii, decoded, none]
    split_ifs with impossible unexpected
    · rfl
    · rfl
    · exact absurd (continuation_bits (by omega) (by omega)).1 unexpected
    · exact absurd (continuation_bits (by omega) (by omega)).1 unexpected

theorem toNat_toUInt8 (small : n < 0x100) : n.toUInt8.toNat = n := UInt8.toNat_ofNat_of_lt' small

/-- The continuation bytes of a codepoint, `k` of them. -/
def digits : Nat → Nat → List UInt8
  | 0, _ => []
  | k + 1, cp => digits k (cp / 64) ++ [(0x80 + cp % 64).toUInt8]

theorem digits_extend {bits : Nat} {bytes : List UInt8} (tail : ∀ b ∈ bytes, isTail b = true) :
    digits bytes.length (extend bits bytes) = bytes ∧ extend bits bytes / 64 ^ bytes.length = bits := by
  induction bytes using reverseRecOn with
  | nil => exact ⟨rfl, Nat.div_one _⟩
  | append_singleton bytes b ih => ?_
  obtain ⟨earlier, last⟩ := forall_mem_append.mp tail
  obtain ⟨same, high⟩ := ih earlier
  have range : 0x80 ≤ b.toNat ∧ b.toNat < 0xC0 := by simpa [isTail] using last
  have step : extend bits (bytes ++ [b]) = extend bits bytes * 64 + (b.toNat - 0x80) := foldl_append
  have above : (extend bits bytes * 64 + (b.toNat - 0x80)) / 64 = extend bits bytes := by omega
  have digit : (0x80 + (extend bits bytes * 64 + (b.toNat - 0x80)) % 64).toUInt8 = b :=
    toUInt8_of_eq (by omega)
  rw [length_append, length_singleton, step, digits, above, same, digit,
    pow_succ', ← Nat.div_div_eq_div_mul, above]
  exact ⟨rfl, high⟩

theorem extend_digits (k cp : Nat) :
    extend (cp / 64 ^ k) (digits k cp) = cp ∧ (digits k cp).length = k ∧
    ∀ b ∈ digits k cp, isTail b = true := by
  induction k generalizing cp with
  | zero => exact ⟨Nat.div_one cp, rfl, nofun⟩
  | succ k ih => ?_
  obtain ⟨value, length, tail⟩ := ih (cp / 64)
  have digit : (0x80 + cp % 64).toUInt8.toNat = 0x80 + cp % 64 := toNat_toUInt8 (by omega)
  refine ⟨?_, by simp [digits, length], forall_mem_append.mpr ⟨tail, ?_⟩⟩
  · rw [extend, digits, foldl_append, pow_succ', ← Nat.div_div_eq_div_mul]
    rw [extend] at value
    rw [value, foldl_cons, foldl_nil, digit]
    omega
  · rw [forall_mem_singleton, isTail, digit]
    simp
    omega

/-- The first byte of an encoding, whose low `w` bits are those of the codepoint from bit `n` on. -/
theorem lead_byte (high w n : Nat) (small : cp / 2 ^ n < 2 ^ w) :
    high <<< w ||| cp >>> n &&& (2 ^ w - 1) = high <<< w + cp / 2 ^ n := by
  rw [and_two_pow_sub_one_eq_mod, shiftRight_eq_div_pow, mod_eq_of_lt small, shift_or _ _ small,
    shiftLeft_eq]

theorem tail_byte (cp n : Nat) : 0x80 ||| cp >>> n &&& 0x3F = 0x80 + cp / 2 ^ n % 64 := by
  have bits : cp >>> n &&& 0x3F = cp / 2 ^ n % 64 := by
    rw [← shiftRight_eq_div_pow]
    exact and_two_pow_sub_one_eq_mod _ 6
  rw [bits]
  exact shift_or 2 6 (mod_lt _ (by decide))

/-- The number of continuation bytes that a codepoint needs, and the first byte without its bits. -/
def shape (cp : Nat) : Nat × Nat :=
  if 0 < cp ∧ cp < 0x80 then (0, 0) else if cp < 0x800 then (1, 0xC0)
    else if cp < 0x10000 then (2, 0xE0) else (3, 0xF0)

/-- The first byte of an encoding. -/
def firstByte (cp : Nat) : Nat := (shape cp).2 + cp / 64 ^ (shape cp).1

theorem encode_eq (valid : ValidCodepoint cp) :
    modUtf8Encode (some cp) = some ((firstByte cp).toUInt8 :: digits (shape cp).1 cp) := by
  have bound := valid.2.1
  have codepoint : ¬ isValidCodepoint cp = false := by simp [isValidCodepoint_iff.mpr valid]
  have last : 0x80 ||| cp &&& 0x3F = 0x80 + cp % 64 :=
    (tail_byte cp 0).trans (by rw [pow_zero, Nat.div_one])
  rw [modUtf8Encode, if_neg codepoint, firstByte, shape]
  split_ifs with one two three
  any_goals omega
  · have low : cp &&& 0x7F = cp % 2 ^ 7 := and_two_pow_sub_one_eq_mod cp 7
    rw [low, mod_eq_of_lt (by omega)]
    simp [digits]
  · have lead : 0xC0 ||| cp >>> 6 &&& 0x1F = 0xC0 + cp / 64 := lead_byte 6 5 6 (by omega)
    rw [lead, last]
    rfl
  · have lead : 0xE0 ||| cp >>> 12 &&& 0x0F = 0xE0 + cp / 4096 := lead_byte 14 4 12 (by omega)
    rw [lead, tail_byte, last]
    rfl
  · have lead : 0xF0 ||| cp >>> 18 &&& 0x07 = 0xF0 + cp / 262144 := lead_byte 30 3 18 (by omega)
    rw [lead, tail_byte, tail_byte, last]
    simp [digits, Nat.div_div_eq_div_mul]

/-- The shape is the only one in which a codepoint is announced and not overlong. -/
theorem shape_iff (bound : cp ≤ 0x10FFFF) :
    announced byte = some (k, cp / 64 ^ k) ∧ (k = 0 ∨ minCp (k + 1) ≤ cp ∨ cp = 0 ∧ k = 1) ↔
      k = (shape cp).1 ∧ byte = firstByte cp := by
  rw [announced_iff, firstByte]
  constructor
  · rintro ⟨⟨rfl, lead⟩ | ⟨rfl, lead⟩ | ⟨rfl, lead⟩ | ⟨rfl, lead⟩ | ⟨rfl, lead⟩ | ⟨rfl, lead⟩, shortest⟩
    all_goals
      norm_num [minCp] at lead shortest
      rw [shape]
      split_ifs <;> dsimp only <;> omega
  · rintro ⟨rfl, rfl⟩
    rw [shape]
    split_ifs <;> norm_num [minCp] <;> omega

theorem encode_iff : modUtf8Encode (some cp) = some (first :: bytes) ↔
    decoded (first :: bytes) = some cp ∧ ∀ b ∈ bytes, isTail b = true := by
  constructor
  · intro encoded
    by_cases valid : ValidCodepoint cp
    · obtain ⟨value, length, tail⟩ := extend_digits (shape cp).1 cp
      obtain ⟨lead, shortest⟩ := (shape_iff (Int.ofNat_le.mp valid.2.1)).mpr ⟨rfl, rfl⟩
      have small : firstByte cp < 0x100 := by
        have range := announced_iff.mp lead
        omega
      rw [encode_eq valid] at encoded
      cases encoded
      refine ⟨?_, tail⟩
      rw [decoded, toNat_toUInt8 small, lead]
      dsimp only
      rw [value, if_pos ⟨length, valid, shortest⟩]
    · rw [← isValidCodepoint_iff, Bool.not_eq_true] at valid
      rw [modUtf8Encode, if_pos valid] at encoded
      cases encoded
  · rintro ⟨decodes, tail⟩
    rw [decoded] at decodes
    split at decodes
    · cases decodes
    next k bits lead =>
      split_ifs at decodes with accepted
      obtain ⟨rfl, valid, shortest⟩ := accepted
      obtain rfl := some.inj decodes
      obtain ⟨digits, high⟩ := @digits_extend bits bytes tail
      rw [← high] at lead
      obtain ⟨length, byte⟩ := (shape_iff (Int.ofNat_le.mp valid.2.1)).mp ⟨lead, shortest⟩
      rw [encode_eq valid, ← length, digits, ← byte, toUInt8_of_eq rfl]

theorem tails_spec (m : Nat) (p : List UInt8) :
    tails m p <+: p ∧ (tails m p).length ≤ m ∧ ∀ b ∈ tails m p, isTail b = true :=
  ⟨( takeWhile_prefix _).trans ( take_prefix m p),
    ( takeWhile_prefix _).length_le.trans (length_take_le ..), fun _ => mem_takeWhile_imp⟩

/-- The sequence lies in the first `n` bytes. -/
theorem sequence_spec (n : Nat) (s : List UInt8) :
    sequence n s <+: s ∧ (sequence n s).length ≤ min n 6 ∧
      (sequence n s = [] ↔ n = 0 ∨ head s = 0) ∧ ∀ b ∈ (sequence n s).tail, isTail b = true := by
  cases s with
  | nil => simp [sequence, head]
  | cons first p => ?_
  rw [sequence]
  split_ifs with empty
  · exact ⟨ nil_prefix, zero_le _, by simpa [head] using empty, nofun⟩
  obtain ⟨start, length, tail⟩ := tails_spec (min ((announced first.toNat).elim 0 Prod.fst) (n - 1)) p
  have few : (announced first.toNat).elim 0 Prod.fst ≤ 5 := by
    cases lead : announced first.toNat with
    | none => exact zero_le 5
    | some result =>
      have range := announced_iff.mp lead
      dsimp only [Option.elim]
      omega
  refine ⟨(prefix_cons_inj first).mpr start, ?_, by simpa [head] using empty, tail⟩
  rw [length_cons]
  omega

theorem sequence_take (n : Nat) (s : List UInt8) : sequence n (s.take n) = sequence n s := by
  cases s with
  | nil => simp
  | cons first p =>
    cases n with
    | zero => simp [sequence]
    | succ n => simp [sequence, tails, take_take]

/-- A sequence that is decoded is the encoding of its codepoint. -/
theorem encode_sequence (decodes : decoded (sequence n s) = some cp) :
    modUtf8Encode (some cp) = some (sequence n s) := by
  have tail := (sequence_spec n s).2.2.2
  cases taken : sequence n s with
  | nil =>
    rw [taken] at decodes
    cases decodes
  | cons first bytes =>
    rw [taken] at decodes tail
    exact encode_iff.mpr ⟨decodes, tail⟩

theorem sequence_encode (encoded : modUtf8Encode (some cp) = some (first :: bytes))
    (whole : bytes.length < n) (rest : List UInt8) :
    sequence n (first :: bytes ++ rest) = first :: bytes := by
  obtain ⟨decodes, tail⟩ := encode_iff.mp encoded
  rw [decoded] at decodes
  split at decodes
  · cases decodes
  next k bits lead =>
    split_ifs at decodes with accepted
    have range := announced_iff.mp lead
    have present : ¬ (n = 0 ∨ first.toNat = 0) := by omega
    have all : min k (n - 1) = bytes.length := by omega
    rw [cons_append, sequence, if_neg present, lead, Option.elim, all, tails, take_left,
      takeWhile_eq_self_iff.mpr tail]

/-- For every `int` the encoder succeeds on the valid codepoints, and what it stores is decoded as
the codepoint. For every string and `n` the decoder takes the sequence that is documented, which
lies in the first `n` bytes, reads no other byte and succeeds iff it is valid; it is then the
encoding of the codepoint. -/
theorem codec_exact (codepoint : BitVec 32) (s : List UInt8) (n : Nat) :
    (ValidCodepoint codepoint.toInt ∧ (∃ bytes, modUtf8Encode (some codepoint.toNat) = some bytes ∧
        ∀ rest, ∀ m ≥ bytes.length, modUtf8Codepoint (bytes ++ rest) m =
        .ok (some codepoint.toNat, rest)) ∨
      ¬ ValidCodepoint codepoint.toInt ∧ modUtf8Encode (some codepoint.toNat) = none) ∧
    modUtf8Codepoint s n = .ok (decoded (sequence n s), s.drop (sequence n s).length) ∧
    modUtf8Codepoint (s.take n) n = .ok (decoded (sequence n s), (s.take n).drop (sequence n s).length) ∧
    sequence n s <+: s ∧ (sequence n s).length ≤ min n 6 ∧ (sequence n s = [] ↔ n = 0 ∨ head s = 0) ∧
    ∀ cp, decoded (sequence n s) = some cp → modUtf8Encode (some cp) = some (sequence n s) := by
  obtain ⟨start, length, empty, -⟩ := sequence_spec n s
  refine ⟨?_, codepoint_eq s n, ?_, start, length, empty, fun cp => encode_sequence⟩
  · have same : ValidCodepoint codepoint.toInt ↔ ValidCodepoint codepoint.toNat := by
      rw [BitVec.toInt_eq_toNat_cond, ValidCodepoint, ValidCodepoint]
      split_ifs <;> omega
    rw [same]
    by_cases valid : ValidCodepoint codepoint.toNat
    · have encoded := encode_eq valid
      refine .inl ⟨valid, _, encoded, fun rest m whole => ?_⟩
      rw [codepoint_eq, sequence_encode encoded (lt_of_succ_le whole), (encode_iff.mp encoded).1,
        drop_left]
    · refine .inr ⟨valid, ?_⟩
      rw [← isValidCodepoint_iff, Bool.not_eq_true] at valid
      rw [modUtf8Encode, if_pos valid]
  · rw [codepoint_eq, sequence_take]

end Qemu.Unicode
