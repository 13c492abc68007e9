import Abacus.Refusal

/-!
# Bounded counters

A counter holds a value and the limit that the value must not pass. The operations compute with
wrap-around on 128-bit words; on a counter that is `Bounded` no operation wraps, so
`Bounded.toNat_headroom`, `Bounded.add_eq_ok_iff` and `sub_eq_ok_iff` give their results in exact
arithmetic, and `Bounded.add` and `Bounded.sub` say that every counter made from a fresh one is
bounded.
-/

namespace Abacus

open Text

/-- A value together with the limit it must not pass. -/
@[ext]
structure Counter where
  value : Amount
  limit : Amount
  deriving DecidableEq

namespace Counter

/-- The value is within the limit. -/
def Bounded (c : Counter) : Prop := c.value ≤ c.limit

instance (c : Counter) : Decidable c.Bounded := inferInstanceAs (Decidable (c.value ≤ c.limit))

/-- A counter at zero. -/
def fresh (limit : Amount) : Counter := ⟨0#128, limit⟩

/-- How much can be added before the limit is met. -/
def headroom (c : Counter) : Amount := c.limit - c.value

/-- Adds an amount, unless it is more than the headroom. -/
def add (c : Counter) (x : Amount) : Except Refusal Counter :=
  if x > c.headroom then .error (.overflow x c.limit) else .ok { c with value := c.value + x }

/-- Subtracts an amount, unless it is more than the value. -/
def sub (c : Counter) (x : Amount) : Except Refusal Counter :=
  if x > c.value then .error (.underflow x c.value) else .ok { c with value := c.value - x }

/-- The written form of a counter. -/
def layout (c : Counter) : Layout :=
  .record "SequentialCounter" [("value", .atom c.value.text), ("limit", .atom c.limit.text)]

/-! ## Exact arithmetic -/

theorem bounded_fresh (limit : Amount) : (fresh limit).Bounded := Nat.zero_le _

theorem Bounded.toNat_le {c : Counter} (h : c.Bounded) : c.value.toNat ≤ c.limit.toNat := h

theorem Bounded.toNat_headroom {c : Counter} (h : c.Bounded) :
    c.headroom.toNat = c.limit.toNat - c.value.toNat :=
  BitVec.toNat_sub_of_le h

/-- An addition is accepted exactly when the exact sum stays within the limit. -/
theorem Bounded.add_eq_ok_iff {c d : Counter} (h : c.Bounded) (x : Amount) :
    c.add x = .ok d ↔
      c.value.toNat + x.toNat ≤ c.limit.toNat ∧ d.limit = c.limit ∧
        d.value.toNat = c.value.toNat + x.toNat := by
  have hroom := h.toNat_headroom
  have hle := h.toNat_le
  have hlimit := c.limit.isLt
  have hgt : x > c.headroom ↔ c.limit.toNat - c.value.toNat < x.toNat := by
    rw [← hroom]; exact Iff.rfl
  unfold add
  split
  · rename_i hx
    rw [hgt] at hx
    constructor
    · intro hd; cases hd
    · intro hd; omega
  · rename_i hx
    rw [hgt] at hx
    have hsum : (c.value + x).toNat = c.value.toNat + x.toNat := by
      rw [BitVec.toNat_add, Nat.mod_eq_of_lt (by omega)]
    constructor
    · intro hd
      cases hd
      exact ⟨by omega, rfl, hsum⟩
    · rintro ⟨-, hl, hv⟩
      congr 1
      ext1
      · exact BitVec.eq_of_toNat_eq (hsum.trans hv.symm)
      · exact hl.symm

/-- A subtraction is accepted exactly when the value is at least the amount. -/
theorem sub_eq_ok_iff {c d : Counter} (x : Amount) :
    c.sub x = .ok d ↔
      x.toNat ≤ c.value.toNat ∧ d.limit = c.limit ∧ d.value.toNat = c.value.toNat - x.toNat := by
  have hgt : x > c.value ↔ c.value.toNat < x.toNat := Iff.rfl
  unfold sub
  split
  · rename_i hx
    rw [hgt] at hx
    constructor
    · intro hd; cases hd
    · intro hd; omega
  · rename_i hx
    rw [hgt] at hx
    have hdiff : (c.value - x).toNat = c.value.toNat - x.toNat :=
      BitVec.toNat_sub_of_le (Nat.le_of_not_lt hx)
    constructor
    · intro hd
      cases hd
      exact ⟨by omega, rfl, hdiff⟩
    · rintro ⟨-, hl, hv⟩
      congr 1
      ext1
      · exact BitVec.eq_of_toNat_eq (hdiff.trans hv.symm)
      · exact hl.symm

theorem Bounded.add {c d : Counter} (h : c.Bounded) {x : Amount} (hd : c.add x = .ok d) :
    d.Bounded := by
  obtain ⟨hle, hl, hv⟩ := (h.add_eq_ok_iff x).1 hd
  show d.value.toNat ≤ d.limit.toNat
  rw [hl, hv]
  exact hle

theorem Bounded.sub {c d : Counter} (h : c.Bounded) {x : Amount} (hd : c.sub x = .ok d) :
    d.Bounded := by
  obtain ⟨-, hl, hv⟩ := (sub_eq_ok_iff x).1 hd
  have hle := h.toNat_le
  show d.value.toNat ≤ d.limit.toNat
  rw [hl, hv]
  omega

theorem limit_of_add {c d : Counter} {x : Amount} (h : c.add x = .ok d) : d.limit = c.limit := by
  unfold add at h
  split at h
  · cases h
  · cases h
    rfl

theorem limit_of_sub {c d : Counter} {x : Amount} (h : c.sub x = .ok d) : d.limit = c.limit :=
  ((sub_eq_ok_iff x).1 h).2.1

/-- A bounded value fits into a fresh counter with the same limit. -/
theorem Bounded.add_fresh {c : Counter} (h : c.Bounded) : (fresh c.limit).add c.value = .ok c := by
  rw [(bounded_fresh c.limit).add_eq_ok_iff]
  refine ⟨?_, rfl, ?_⟩
  · simpa [fresh] using h.toNat_le
  · simp [fresh]

end Counter

end Abacus
