/-!
# Amounts

An amount is a 128-bit word. Counters add and subtract amounts with wrap-around, and two operations
stop at the ends of the range instead: `satAdd` at the largest amount and `satSub` at zero. Their
values in `Nat` are `toNat_satAdd` and `toNat_satSub`.
-/

namespace Abacus

/-- A count between zero and `2 ^ 128 - 1`. -/
abbrev Amount := BitVec 128

namespace Amount

/-- The largest amount. -/
def greatest : Amount := BitVec.allOnes 128

/-- The sum, or the largest amount when the sum is beyond it. -/
def satAdd (a b : Amount) : Amount :=
  if a.toNat + b.toNat ≤ greatest.toNat then a + b else greatest

/-- The difference, or zero when `b` is above `a`. -/
def satSub (a b : Amount) : Amount :=
  if b ≤ a then a - b else 0#128

/-- The decimal digits of an amount, without leading zeros. -/
def text (a : Amount) : String := a.toNat.repr

theorem toNat_le_greatest (a : Amount) : a.toNat ≤ greatest.toNat := by
  have := a.isLt
  simp only [greatest, BitVec.toNat_allOnes]
  omega

theorem toNat_satAdd (a b : Amount) :
    (satAdd a b).toNat = min (a.toNat + b.toNat) greatest.toNat := by
  have hlt := greatest.isLt
  unfold satAdd
  split
  · rw [BitVec.toNat_add, Nat.mod_eq_of_lt (by omega)]
    omega
  · omega

theorem toNat_satSub (a b : Amount) : (satSub a b).toNat = a.toNat - b.toNat := by
  unfold satSub
  split
  · exact BitVec.toNat_sub_of_le ‹_›
  · rename_i h
    have : a.toNat < b.toNat := Nat.lt_of_not_le h
    rw [BitVec.toNat_zero]
    omega

@[simp]
theorem satAdd_zero (a : Amount) : satAdd a 0#128 = a := by
  apply BitVec.eq_of_toNat_eq
  have := a.toNat_le_greatest
  rw [toNat_satAdd, BitVec.toNat_zero]
  omega

end Amount

end Abacus
