import Mathlib.Algebra.Group.Nat.Defs

/-!
# Unsigned integers and characters (`lib/stdint.h`)

Numbers of the code are natural numbers; `u8` and `u32` mark the places where its arithmetic may
wrap.
-/
namespace LibStdint

def u8 (x : ℕ) : ℕ := x % 2 ^ 8

def u32 (x : ℕ) : ℕ := x % 2 ^ 32

/-- `DIV_ROUND_UP`, whose sum is a 32-bit one. -/
def divRoundUp (x step : ℕ) : ℕ := u32 (x + step - 1) / step

def charZero : BitVec 8 := 0x30#8

variable {x : ℕ}

theorem u32_lt (x : ℕ) : u32 x < 2 ^ 32 := Nat.mod_lt _ (by decide)

theorem u32_of_lt (h : x < 2 ^ 32) : u32 x = x := Nat.mod_eq_of_lt h

end LibStdint
