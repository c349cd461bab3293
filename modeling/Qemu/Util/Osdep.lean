import Mathlib.Tactic

/-! Error numbers, and the rounding macros of `qemu/osdep.h`. -/

namespace Qemu

def eperm : Int := 1

def eio : Int := 5

def einval : Int := 22

def efbig : Int := 27

def enospc : Int := 28

def enotsup : Int := 95

def alignDown (n align : Nat) : Nat := n / align * align

def roundUp (n align : Nat) : Nat := (n + align - 1) / align * align

end Qemu
