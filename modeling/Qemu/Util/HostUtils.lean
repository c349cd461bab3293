import Qemu.Lib.LongDivision
import Mathlib.Tactic

/-! The portable integer helpers of host-utils, built when the host compiler has
no 128-bit integer type, and the native versions they stand in for. -/

namespace Qemu.HostUtils

/-- The union of a 64-bit word with its two halves. -/
structure LL where
  low : BitVec 32
  high : BitVec 32
  deriving DecidableEq, Repr

def LL.of (ll : BitVec 64) : LL := ⟨ll.setWidth 32, (ll >>> 32).setWidth 32⟩

def LL.ll (words : LL) : BitVec 64 := words.high ++ words.low

/-- Full product of two words, as `(*plow, *phigh)`. -/
def mul64 (a b : BitVec 64) : BitVec 64 × BitVec 64 :=
  let a0 := LL.of a
  let b0 := LL.of b
  let rl := LL.of (a0.low.setWidth 64 * b0.low.setWidth 64)
  let rm := LL.of (a0.low.setWidth 64 * b0.high.setWidth 64)
  let rn := LL.of (a0.high.setWidth 64 * b0.low.setWidth 64)
  let rh := LL.of (a0.high.setWidth 64 * b0.high.setWidth 64)
  let c := rl.high.setWidth 64 + rm.low.setWidth 64 + rn.low.setWidth 64
  let rl : LL := { rl with high := c.setWidth 32 }
  let c := c >>> 32
  let c := c + rm.high.setWidth 64 + rn.high.setWidth 64 + rh.low.setWidth 64
  let rh : LL := { low := c.setWidth 32, high := rh.high + (c >>> 32).setWidth 32 }
  (rl.ll, rh.ll)

def mulu64 (a b : BitVec 64) : BitVec 64 × BitVec 64 := mul64 a b

/-- Signed product: the unsigned one with its high word adjusted for signs. -/
def muls64 (a b : BitVec 64) : BitVec 64 × BitVec 64 :=
  let (plow, rh) := mul64 a b
  let rh := if b.slt 0 then rh - a else rh
  let rh := if a.slt 0 then rh - b else rh
  (plow, rh)

/-- One half of `udiv_qrnnd`: the block the source writes once for each half of
the low dividend word. -/
def qrnndHalf (d n x : BitVec 64) : BitVec 64 × BitVec 64 :=
  let d0 := (d.setWidth 32).setWidth 64
  let d1 := d >>> 32
  let r := n % d1
  let q := n / d1
  let m := q * d0
  let r := (r <<< 32) ||| x
  let (q, r) :=
    if r < m then
      let q := q - 1
      let r := r + d
      if d ≤ r then
        if r < m then (q - 1, r + d) else (q, r)
      else (q, r)
    else (q, r)
  (q, r - m)

/-- The generic branch of `udiv_qrnnd`, as `(quotient, *r)`. -/
def udivQrnnd (n1 n0 d : BitVec 64) : BitVec 64 × BitVec 64 :=
  let (q1, r1) := qrnndHalf d n1 (n0 >>> 32)
  let (q0, r0) := qrnndHalf d r1 ((n0.setWidth 32).setWidth 64)
  ((q1 <<< 32) ||| q0, r0)

def clz64 (x : BitVec 64) : Nat := x.clz.toNat

/-- Unsigned 128-by-64 division, as `(*plow, *phigh, remainder)`. -/
def divu128 (plow phigh divisor : BitVec 64) : BitVec 64 × BitVec 64 × BitVec 64 :=
  let dhi := phigh
  let dlo := plow
  if divisor = 0 ∨ dhi = 0 then
    (dlo / divisor, 0, dlo % divisor)
  else
    let sh := clz64 divisor
    if dhi < divisor then
      let (divisor, dhi, dlo) :=
        if sh ≠ 0 then (divisor <<< sh, (dhi <<< sh) ||| (dlo >>> (64 - sh)), dlo <<< sh)
        else (divisor, dhi, dlo)
      let (plow, rem) := udivQrnnd dhi dlo divisor
      (plow, 0, rem >>> sh)
    else
      let (phigh, divisor, dhi, dlo) :=
        if sh ≠ 0 then
          let divisor := divisor <<< sh
          let dhighest := dhi >>> (64 - sh)
          let dhi := (dhi <<< sh) ||| (dlo >>> (64 - sh))
          let dlo := dlo <<< sh
          let (phigh, dhi) := udivQrnnd dhighest dhi divisor
          (phigh, divisor, dhi, dlo)
        else (1, divisor, dhi - divisor, dlo)
      let (plow, rem) := udivQrnnd dhi dlo divisor
      (plow, phigh, rem >>> sh)

/-- Signed 128-by-64 division, as `(*plow, *phigh, remainder)`. -/
def divs128 (plow phigh divisor : BitVec 64) : BitVec 64 × BitVec 64 × BitVec 64 :=
  let negDividend := phigh.slt 0
  let (unsigHi, unsigLo) :=
    if negDividend then
      if plow = 0 then (-phigh, plow) else (~~~phigh, -plow)
    else (phigh, plow)
  let negQuotient := negDividend ^^ divisor.slt 0
  let divisor := if divisor.slt 0 then -divisor else divisor
  let (unsigLo, unsigHi, rem) := divu128 unsigLo unsigHi divisor
  let (plow, phigh) :=
    if negQuotient then
      if unsigLo = 0 then (0, -unsigHi) else (-unsigLo, ~~~unsigHi)
    else (unsigLo, unsigHi)
  (plow, phigh, if negDividend then -rem else rem)

/-- The 96-bit multiply and divide in 32-bit steps. -/
def muldiv64Rounding (a : BitVec 64) (b c : BitVec 32) (roundUp : Bool) : BitVec 64 :=
  let u := LL.of a
  let rl := u.low.setWidth 64 * b.setWidth 64
  let rl := if roundUp then rl + (c - 1).setWidth 64 else rl
  let rh := u.high.setWidth 64 * b.setWidth 64
  let rh := rh + (rl >>> 32)
  let res : LL := {
    high := (rh / c.setWidth 64).setWidth 32
    low := ((((rh % c.setWidth 64) <<< 32) + (rl &&& 0xffffffff)) / c.setWidth 64).setWidth 32 }
  res.ll

def muldiv64 (a : BitVec 64) (b c : BitVec 32) : BitVec 64 := muldiv64Rounding a b c false

def muldiv64RoundUp (a : BitVec 64) (b c : BitVec 32) : BitVec 64 := muldiv64Rounding a b c true

namespace Native

/-- The `__int128_t` version, truncated on return. -/
def muldiv64 (a : BitVec 64) (b c : BitVec 32) : BitVec 64 :=
  ((a.setWidth 128 * b.setWidth 128).sdiv (c.setWidth 128)).setWidth 64

def muldiv64RoundUp (a : BitVec 64) (b c : BitVec 32) : BitVec 64 :=
  ((a.setWidth 128 * b.setWidth 128 + c.setWidth 128 - 1).sdiv (c.setWidth 128)).setWidth 64

end Native

end Qemu.HostUtils
