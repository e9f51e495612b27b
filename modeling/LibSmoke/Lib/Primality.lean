import Mathlib.Algebra.BigOperators.Group.List.Basic
import Mathlib.Data.List.Prime
import Mathlib.NumberTheory.LucasPrimality

/-!
# Primes by the test of Lucas

A number is prime when some `a` has the order `p - 1` modulo it. The test is
evaluated: powers by repeated squaring, and for each of the primes `qs`, which
have to be all that divide `p - 1`, that the power to `(p - 1) / q` is not one.
-/

namespace Primality

/-- `a ^ e` modulo `m`, for an exponent of `n` bits. -/
def powMod (m a : Nat) : Nat → Nat → Nat
  | 0, _ => 1 % m
  | n + 1, e =>
      let r := powMod m a n (e / 2)
      if e % 2 = 1 then r * r % m * a % m else r * r % m

theorem powMod_eq (m a n : Nat) : ∀ e < 2 ^ n, powMod m a n e = a ^ e % m := by
  induction n with
  | zero =>
      intro e he
      have he0 : e = 0 := by simpa using he
      rw [he0, powMod, pow_zero]
  | succ n ih =>
      intro e he
      rw [pow_succ] at he
      have hsq : powMod m a n (e / 2) * powMod m a n (e / 2) % m = a ^ (2 * (e / 2)) % m := by
        rw [ih (e / 2) (by omega), ← Nat.mul_mod, ← pow_add, two_mul]
      rw [powMod]
      simp only [hsq]
      split
      · next hodd =>
          rw [Nat.mod_mul_mod, ← pow_succ]
          congr 2
          omega
      · next heven =>
          congr 2
          omega

/-- `qs` holds every prime that divides `p - 1`, and `a` has that order. -/
def lucas (n p a : Nat) (qs : List Nat) : Bool :=
  1 < p && p ≤ 2 ^ n && qs.prod ^ n % (p - 1) = 0 && powMod p a n (p - 1) = 1 &&
    qs.all fun q => powMod p a n ((p - 1) / q) ≠ 1

theorem cast_pow_eq_one {p : Nat} (hp : 1 < p) (a e : Nat) :
    (a : ZMod p) ^ e = 1 ↔ a ^ e % p = 1 := by
  rw [← Nat.cast_pow, ← Nat.cast_one, ZMod.natCast_eq_natCast_iff', Nat.mod_eq_of_lt hp]

theorem prime_of_lucas (n : Nat) {p : Nat} (a : Nat) (qs : List Nat)
    (hqs : qs.Forall Nat.Prime) (h : lucas n p a qs = true) : p.Prime := by
  simp only [lucas, Bool.and_eq_true, decide_eq_true_eq, List.all_eq_true] at h
  obtain ⟨⟨⟨⟨hp, hn⟩, hdvd⟩, hone⟩, hne⟩ := h
  rw [powMod_eq p a n _ (by omega)] at hone
  refine lucas_primality p a ((cast_pow_eq_one hp a _).mpr hone) fun q hq hqp => ?_
  have hmem : q ∈ qs := by
    have hprod : q ∣ qs.prod :=
      hq.dvd_of_dvd_pow (hqp.trans (Nat.dvd_of_mod_eq_zero hdvd))
    obtain ⟨r, hr, hqr⟩ := (Prime.dvd_prod_iff hq.prime).mp hprod
    rwa [(Nat.prime_dvd_prime_iff_eq hq (List.forall_iff_forall_mem.mp hqs r hr)).mp hqr]
  have hle : (p - 1) / q ≤ p - 1 := Nat.div_le_self _ _
  rw [Ne, cast_pow_eq_one hp, ← powMod_eq p a n _ (by omega)]
  exact hne q hmem

end Primality
