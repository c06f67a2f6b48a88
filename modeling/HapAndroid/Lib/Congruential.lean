import Mathlib.Data.Nat.ModEq
import Mathlib.Logic.Function.Iterate
import Mathlib.Tactic.Ring

/-!
# The walk `x ↦ a x + c` modulo a power of two

Where `a` is one more than a multiple of four and `c` is odd, the walk goes through all residues
modulo `2 ^ k` in `2 ^ k` steps, from every start.  The reason is `iterate_add_two_pow`: `2 ^ k`
steps add `2 ^ k` modulo `2 ^ (k + 1)`, so a residue that `k` bits are right for is right for
one bit more now or half a round later.
-/

namespace Congruential

variable {a c : Nat}

def affine (a c x : Nat) : Nat := a * x + c

/-- `2 ^ k` steps are an affine map whose coefficients are known up to a power of two. -/
theorem exists_iterate_two_pow (ha : a % 4 = 1) (hc : c % 2 = 1) (k : Nat) :
    ∃ u v, ∀ x, (affine a c)^[2 ^ k] x = (1 + 2 ^ (k + 2) * u) * x + 2 ^ k * (1 + 2 * v) := by
  induction k with
  | zero =>
      refine ⟨a / 4, c / 2, fun x => ?_⟩
      have hau : 1 + 2 ^ (0 + 2) * (a / 4) = a := by omega
      have hcv : 2 ^ 0 * (1 + 2 * (c / 2)) = c := by omega
      rw [hau, hcv]
      rfl
  | succ k ih =>
      obtain ⟨u, v, h⟩ := ih
      refine ⟨u + 2 ^ (k + 1) * u * u, v + 2 ^ k * u * (1 + 2 * v), fun x => ?_⟩
      rw [pow_succ, mul_two, Function.iterate_add_apply, h, h]
      ring

theorem iterate_add_two_pow (ha : a % 4 = 1) (hc : c % 2 = 1) (n k x : Nat) :
    (affine a c)^[2 ^ k + n] x ≡ (affine a c)^[n] x + 2 ^ k [MOD 2 ^ (k + 1)] := by
  obtain ⟨u, v, h⟩ := exists_iterate_two_pow ha hc k
  rw [Function.iterate_add_apply, h]
  generalize (affine a c)^[n] x = y
  have hsum : (1 + 2 ^ (k + 2) * u) * y + 2 ^ k * (1 + 2 * v) =
      y + 2 ^ k + 2 ^ (k + 1) * (2 * u * y + v) := by ring
  rw [hsum]
  exact Nat.add_modulus_mul_modEq_iff.mpr rfl

/-- Two numbers with the same residue modulo `m` have the same one modulo `2 m`, or they differ
by `m` there. -/
theorem modEq_mul_two {m y i : Nat} (h : y ≡ i [MOD m]) :
    y ≡ i [MOD m * 2] ∨ y + m ≡ i [MOD m * 2] := by
  rcases Nat.eq_zero_or_pos m with rfl | hm
  · exact Or.inl h
  have hres : y % m = i % m := h
  -- The quotients by `m` are both even, both odd, or one is made so by adding `m`.
  rcases Nat.mod_two_eq_zero_or_one (y / m + i / m) with hq | hq
  · have hpar : y / m % 2 = i / m % 2 := by omega
    left
    rw [Nat.ModEq, Nat.mod_mul, Nat.mod_mul, hres, hpar]
  · have hpar : (y / m + 1) % 2 = i / m % 2 := by omega
    right
    rw [Nat.ModEq, Nat.mod_mul, Nat.mod_mul, Nat.add_mod_right, Nat.add_div_right y hm, hres, hpar]

/-- The walk comes to every residue. -/
theorem exists_iterate_modEq (ha : a % 4 = 1) (hc : c % 2 = 1) (k i x : Nat) :
    ∃ n < 2 ^ k, (affine a c)^[n] x ≡ i [MOD 2 ^ k] := by
  induction k with
  | zero => exact ⟨0, Nat.one_pos, Nat.modEq_one⟩
  | succ k ih =>
      obtain ⟨n, hn, h⟩ := ih
      have hpow : 2 ^ (k + 1) = 2 ^ k * 2 := Nat.pow_succ 2 k
      rcases modEq_mul_two h with h | h
      · exact ⟨n, by omega, hpow ▸ h⟩
      · refine ⟨2 ^ k + n, by omega, ?_⟩
        exact (iterate_add_two_pow ha hc n k x).trans (hpow ▸ h)

end Congruential
