/-!
# Long integers with a sticky bit

An integer of more than sixty-four bits is rounded from its leading sixty-four
bits; the last of these is set when a bit below them is found.  Bits are looked
for limb by limb: where the topmost of the 64-bit limbs has `t` bits, in the low
`t` bits of each limb.  In an integer of two limbs, and where the topmost limb
is full, these are all the bits below.
-/

namespace Ecma

namespace Sticky

/-- How many bits lie below the leading sixty-four. -/
def dropped (n : Nat) : Nat := n.log2 - 63

/-- How many bits the topmost limb has. -/
def topBits (n : Nat) : Nat := n.log2 % 64 + 1

/-- The leading sixty-four bits, or all of them if there are fewer. -/
def leading (n : Nat) : Nat := n >>> dropped n

/-- What lies below the leading bits. -/
def below (n : Nat) : Nat := n % Nat.pow 2 (dropped n)

/-- The limb of a place, counted from the lowest. -/
def limb (n i : Nat) : Nat := (n >>> (64 * i)) % Nat.pow 2 64

/-- Whether some limb has a bit set among its low `t` bits. -/
def anyLow (t n : Nat) : Bool :=
  (List.range (n.log2 / 64 + 1)).any fun i ↦ limb n i % Nat.pow 2 t != 0

/-- The leading bits, the last one set if a bit is found below. -/
def jammed (n : Nat) : Nat :=
  if anyLow (topBits n) (below n) then leading n ||| 1 else leading n

/-- The integer with the sticky bit for all that lies below its leading bits. -/
def coarsen (n : Nat) : Nat := jammed n <<< dropped n

theorem dropped_eq_zero {n : Nat} (h : n < 18446744073709551616) : dropped n = 0 := by
  have hlog : n.log2 < 64 := by
    by_cases hn : n = 0
    · simp [hn]
    · exact (Nat.log2_lt hn).2 h
  simp only [dropped]
  omega

/-- An integer of at most sixty-four bits is kept as it is. -/
theorem coarsen_eq_self {n : Nat} (h : n < 18446744073709551616) : coarsen n = n := by
  have hd := dropped_eq_zero h
  have hb : below n = 0 := by simp [below, hd, Nat.mod_one]
  simp [coarsen, jammed, leading, hd, hb, anyLow, limb]

end Sticky

end Ecma
