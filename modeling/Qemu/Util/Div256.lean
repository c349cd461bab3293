import Mathlib.Tactic

/-! Division of 256-bit integers by 128-bit ones, on hosts with a native 128-bit
type, and the vector-divide-extended helpers built on it. -/

namespace Qemu

/-- `__int128_t`: arithmetic wraps, only some operations read the sign. -/
abbrev Int128 := BitVec 128

namespace Int128

def make64 (a : BitVec 64) : Int128 := a.setWidth 128

def makes64 (a : BitVec 64) : Int128 := a.signExtend 128

def make128 (lo hi : BitVec 64) : Int128 := (hi.setWidth 128 <<< 64) ||| lo.setWidth 128

def getlo (a : Int128) : BitVec 64 := a.setWidth 64

def gethi (a : Int128) : BitVec 64 := (a.sshiftRight 64).setWidth 64

/-- The arithmetic shift. -/
def rshift (a : Int128) (n : Nat) : Int128 := a.sshiftRight n

/-- The logical shift. -/
def urshift (a : Int128) (n : Nat) : Int128 := a >>> n

def lshift (a : Int128) (n : Nat) : Int128 := a <<< n

def nonneg (a : Int128) : Bool := !a.slt 0

def nz (a : Int128) : Bool := a != 0

def divu (a b : Int128) : Int128 := a / b

def remu (a b : Int128) : Int128 := a % b

def clz128 (a : Int128) : Nat :=
  if a.sshiftRight 64 ≠ 0 then (gethi a).clz.toNat
  else if a ≠ 0 then (getlo a).clz.toNat + 64 else 128

end Int128

open Int128

/-- A 128-by-64 product truncated to 128 bits, as `(*plow, *phigh, truncated)`. -/
def mulu128 (plow phigh factor : BitVec 64) : BitVec 64 × BitVec 64 × Bool :=
  let f : BitVec 128 := (phigh.setWidth 128 <<< 64) ||| plow.setWidth 128
  let r := f * factor.setWidth 128
  (r.setWidth 64, (r >>> 64).setWidth 64, decide (2 ^ 128 ≤ f.toNat * factor.toNat))

/-- One half of `udiv256_qrnnd`: the block the source writes once for each half
of the low dividend word. -/
def qrnnd256Half (d n : Int128) (x : BitVec 64) : Int128 × Int128 :=
  let d0 := make64 (getlo d)
  let d1 := make64 (gethi d)
  let r := remu n d1
  let q := divu n d1
  let (mp0, mp1, _) := mulu128 (getlo q) (gethi q) (getlo d0)
  let m := make128 mp0 mp1
  let r := make128 x (getlo r)
  let (q, r) :=
    if r < m then
      let q := q - 1
      let r := r + d
      if d ≤ r then
        if r < m then (q - 1, r + d) else (q, r)
      else (q, r)
    else (q, r)
  (q, r - m)

/-- As `(quotient, *r)`. -/
def udiv256Qrnnd (n1 n0 d : Int128) : Int128 × Int128 :=
  let (q1, r1) := qrnnd256Half d n1 (gethi n0)
  let (q0, r0) := qrnnd256Half d r1 (getlo n0)
  (lshift q1 64 ||| q0, r0)

/-- Unsigned 256-by-128 division, as `(*plow, *phigh, remainder)`. -/
def divu256 (plow phigh divisor : Int128) : Int128 × Int128 × Int128 :=
  let dhi := phigh
  let dlo := plow
  if !nz divisor || !nz dhi then
    (divu dlo divisor, 0, remu dlo divisor)
  else
    let sh := clz128 divisor
    if dhi < divisor then
      let (divisor, dhi, dlo) :=
        if sh ≠ 0 then
          (lshift divisor sh, lshift dhi sh ||| urshift dlo (128 - sh), lshift dlo sh)
        else (divisor, dhi, dlo)
      let (plow, rem) := udiv256Qrnnd dhi dlo divisor
      (plow, 0, urshift rem sh)
    else
      let (phigh, divisor, dhi, dlo) :=
        if sh ≠ 0 then
          let divisor := lshift divisor sh
          -- The only arithmetic shift: it copies the sign bit of the dividend.
          let dhighest := rshift dhi (128 - sh)
          let dhi := lshift dhi sh ||| urshift dlo (128 - sh)
          let dlo := lshift dlo sh
          let (phigh, dhi) := udiv256Qrnnd dhighest dhi divisor
          (phigh, divisor, dhi, dlo)
        else (1, divisor, dhi - divisor, dlo)
      let (plow, rem) := udiv256Qrnnd dhi dlo divisor
      (plow, phigh, urshift rem sh)

/-- Signed 256-by-128 division, as `(*plow, *phigh, remainder)`. -/
def divs256 (plow phigh divisor : Int128) : Int128 × Int128 × Int128 :=
  let negRemainder := !nonneg phigh
  let (unsigLo, unsigHi) :=
    if !nonneg phigh then
      if !nz plow then (plow, -phigh) else (-plow, ~~~phigh)
    else (plow, phigh)
  let negQuotient := !nonneg phigh ^^ !nonneg divisor
  let divisor := if !nonneg divisor then -divisor else divisor
  let (unsigLo, unsigHi, rem) := divu256 unsigLo unsigHi divisor
  let (plow, phigh) :=
    if negQuotient then
      if !nz unsigLo then (0, -unsigHi) else (-unsigLo, ~~~unsigHi)
    else (unsigLo, unsigHi)
  (plow, phigh, if negRemainder then -rem else rem)

namespace Ppc

/-- Vector Divide Extended Signed Quadword; the undefined cases return `a`. -/
def helperVDIVESQ (a b : Int128) : Int128 :=
  let int128Min := make128 0 (BitVec.intMin 64)
  let neg1 := makes64 (-1)
  if !nz b || (b == neg1 && a == int128Min) then a
  else (divs256 0 a b).1

/-- Vector Divide Extended Unsigned Quadword; the undefined case returns `a`. -/
def helperVDIVEUQ (a b : Int128) : Int128 :=
  if !nz b then a else (divu256 0 a b).1

end Ppc

end Qemu
