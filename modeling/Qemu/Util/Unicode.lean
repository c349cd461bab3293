import Mathlib.Tactic

/-! Modified UTF-8: like UTF-8, except that U+0000 is encoded in two bytes. A string is the list of
its bytes before the terminating zero byte. -/

namespace Qemu.Unicode

inductive Assertion where
  | sequenceLength
  deriving DecidableEq, Repr

def isValidCodepoint (codepoint : Nat) : Bool :=
  if codepoint > 0x10FFFF then false
  else if (codepoint ≥ 0xFDD0 ∧ codepoint ≤ 0xFDEF) ∨ codepoint &&& 0xFFFE = 0xFFFE then false
  else if codepoint ≥ 0xD800 ∧ codepoint ≤ 0xDFFF then false
  else true

/-- The leading ones of a byte, and the mask of the first zero. -/
def leadingOnes (byte : Nat) : Nat → Nat → Nat × Nat
  | 0, mask => (0, mask)
  | fuel + 1, mask =>
    if byte &&& mask ≠ 0 then
      ((leadingOnes byte fuel (mask >>> 1)).1 + 1, (leadingOnes byte fuel (mask >>> 1)).2)
    else (0, mask)

/-- The byte that a pointer points to. -/
def head (p : List UInt8) : Nat := (p.headD 0).toNat

/-- The loop over the continuation bytes from the one with index `i` on: -1 if one is missing. -/
def continuation (n : Nat) : Nat → Nat → Nat → List UInt8 → Option Nat × List UInt8
  | 0, _, cp, p => (some cp, p)
  | k + 1, i, cp, p =>
    let byte := if i < n then head p else 0
    if byte &&& 0xC0 ≠ 0x80 then (none, p)
    else continuation n k (i + 1) (cp <<< 6 ||| byte &&& 0x3F) p.tail

/-- The least codepoint that needs a sequence of `len` bytes. -/
def minCp (len : Nat) : Nat := [0x80, 0x800, 0x10000, 0x200000, 0x4000000].getD (len - 2) 0

/-- The codepoint at the start of a string, `none` for -1, and the end of its sequence. -/
def modUtf8Codepoint (s : List UInt8) (n : Nat) : Except Assertion (Option Nat × List UInt8) :=
  match s with
  | [] => .ok (none, s)
  | first :: p =>
    let byte := first.toNat
    if n = 0 ∨ byte = 0 then .ok (none, s)
    else if byte < 0x80 then .ok (some byte, p)
    else if byte ≥ 0xFE then .ok (none, p)
    else if byte &&& 0x40 = 0 then .ok (none, p)
    else
      let (len, mask) := leadingOnes byte 8 0x80
      if len > 1 ∧ len < 7 then
        match continuation n (len - 1) 1 (byte &&& (mask - 1)) p with
        | (none, p) => .ok (none, p)
        | (some cp, p) =>
          if isValidCodepoint cp = false then .ok (none, p)
          else if cp < minCp len ∧ ¬ (cp = 0 ∧ len = 2) then .ok (none, p)
          else .ok (some cp, p)
      else .error .sequenceLength

/-- The bytes of a codepoint, `none` for -1; the buffer has room for five. -/
def modUtf8Encode (codepoint : Option Nat) : Option (List UInt8) :=
  match codepoint with
  | none => none
  | some cp =>
    if isValidCodepoint cp = false then none
    else if cp > 0 ∧ cp ≤ 0x7F then some [(cp &&& 0x7F).toUInt8]
    else if cp ≤ 0x7FF then some [(0xC0 ||| cp >>> 6 &&& 0x1F).toUInt8, (0x80 ||| cp &&& 0x3F).toUInt8]
    else if cp ≤ 0xFFFF then
      some [(0xE0 ||| cp >>> 12 &&& 0x0F).toUInt8, (0x80 ||| cp >>> 6 &&& 0x3F).toUInt8,
        (0x80 ||| cp &&& 0x3F).toUInt8]
    else
      some [(0xF0 ||| cp >>> 18 &&& 0x07).toUInt8, (0x80 ||| cp >>> 12 &&& 0x3F).toUInt8,
        (0x80 ||| cp >>> 6 &&& 0x3F).toUInt8, (0x80 ||| cp &&& 0x3F).toUInt8]

end Qemu.Unicode
