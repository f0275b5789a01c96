import UnixV7.Library.Nearest

/-!
# Numbers of a format apart

How far the numbers of a binary format are from one another. A number is the nearest one of its
format to everything that is nearer to it than half of that.
-/

namespace UnixV7

variable {K : Type*} [Field K] [LinearOrder K] [IsStrictOrderedRing K]
variable {x y z : K} {P : ℕ} {low e p m n : ℤ}

/-- Two multiples of a unit are the unit apart. -/
theorem unit_le_abs_sub {h : ℤ} (other : (h : K) * 2 ^ e ≠ (m : K) * 2 ^ e) :
    (2 : K) ^ e ≤ |(m : K) * 2 ^ e - h * 2 ^ e| := by
  have unit : (0 : K) < 2 ^ e := zpow_pos two_pos e
  have differ : m - h ≠ 0 := fun same => other (by rw [sub_eq_zero.mp same])
  have whole : (1 : K) ≤ |((m - h : ℤ) : K)| := by
    rw [← Int.cast_abs]
    exact_mod_cast Int.one_le_abs differ
  calc (2 : K) ^ e = 1 * 2 ^ e := (one_mul _).symm
    _ ≤ |((m - h : ℤ) : K)| * 2 ^ e := mul_le_mul_of_nonneg_right whole unit.le
    _ = |(m : K) * 2 ^ e - h * 2 ^ e| := by
        rw [← abs_of_pos unit, ← abs_mul, abs_of_pos unit]
        push_cast
        rw [sub_mul]

/-- A significand with all its bits is at most one unit of the precision for each unit. -/
theorem le_unit_mul {d : K} (size : m ≤ 2 ^ P) (far : (2 : K) ^ e ≤ d) :
    (m : K) * 2 ^ e ≤ d * 2 ^ P := by
  have bound : (m : K) ≤ 2 ^ P := by exact_mod_cast size
  calc (m : K) * 2 ^ e ≤ 2 ^ P * 2 ^ e :=
        mul_le_mul_of_nonneg_right bound (zpow_pos two_pos e).le
    _ ≤ 2 ^ P * d := mul_le_mul_of_nonneg_left far (pow_pos two_pos P).le
    _ = d * 2 ^ P := mul_comm _ _

/-- Every other number of the format is so far from a number with all its bits that the distance is
not below that number's last place, nor below half of it under a power of two. -/
theorem Representable.apart (some : 0 < P) (normal : 2 ^ (P - 1) ≤ m) (size : m ≤ 2 ^ P)
    (rep : Representable P low z) (other : z ≠ (m : K) * 2 ^ e) :
    (m : K) * 2 ^ e ≤ |(m : K) * 2 ^ e - z| * 2 ^ P := by
  obtain ⟨h, f, bound, -, rfl⟩ := rep
  have unit : (0 : K) < 2 ^ e := zpow_pos two_pos e
  have double : (2 : K) ^ P = 2 * 2 ^ (P - 1) := by rw [← pow_succ', Nat.sub_add_cancel some]
  have top : (h : K) ≤ 2 ^ P := by exact_mod_cast (le_abs_self h).trans bound
  have full : (2 : K) ^ (P - 1) ≤ m := by exact_mod_cast normal
  by_cases coarse : e ≤ f
  · -- a multiple of the unit
    have whole : (h : K) * 2 ^ f = ((h * 2 ^ (f - e).toNat : ℤ) : K) * 2 ^ e := by
      push_cast
      rw [mul_assoc, ← zpow_natCast, ← zpow_add₀ two_ne_zero]
      congr 2
      omega
    rw [whole] at other ⊢
    exact le_unit_mul size (unit_le_abs_sub other)
  · have half : (2 : K) ^ e = 2 * 2 ^ (e - 1) := by
      rw [zpow_sub_one₀ two_ne_zero]
      field_simp
    have small : (0 : K) < 2 ^ (e - 1) := zpow_pos two_pos _
    obtain more | least := lt_or_eq_of_le normal
    · -- the other number is not above the least significand
      refine le_unit_mul size ?_
      have next : (2 : K) ^ (P - 1) + 1 ≤ m := by exact_mod_cast Int.add_one_le_of_lt more
      have below : (h : K) * 2 ^ f ≤ 2 ^ (P - 1) * 2 ^ e := by
        calc (h : K) * 2 ^ f ≤ 2 ^ P * 2 ^ f :=
              mul_le_mul_of_nonneg_right top (zpow_pos two_pos f).le
          _ ≤ 2 ^ P * 2 ^ (e - 1) := by
              apply mul_le_mul_of_nonneg_left _ (pow_pos two_pos P).le
              exact zpow_le_zpow_right₀ one_le_two (by omega)
          _ = 2 ^ (P - 1) * 2 ^ e := by rw [double, half]; ring
      have above : ((2 : K) ^ (P - 1) + 1) * 2 ^ e ≤ (m : K) * 2 ^ e :=
        mul_le_mul_of_nonneg_right next unit.le
      calc (2 : K) ^ e ≤ (m : K) * 2 ^ e - h * 2 ^ f := by linarith
        _ ≤ |(m : K) * 2 ^ e - h * 2 ^ f| := le_abs_self _
    · -- a power of two, below which the unit is half as large
      have power : (m : K) * 2 ^ e = ((2 ^ P : ℤ) : K) * 2 ^ (e - 1) := by
        rw [← least]
        push_cast
        rw [double, half]
        ring
      rw [power] at other ⊢
      by_cases near : f = e - 1
      · subst near
        exact le_unit_mul le_rfl (unit_le_abs_sub other)
      · refine le_unit_mul le_rfl ?_
        have below : (h : K) * 2 ^ f ≤ 2 ^ (P - 1) * 2 ^ (e - 1) := by
          calc (h : K) * 2 ^ f ≤ 2 ^ P * 2 ^ f :=
                mul_le_mul_of_nonneg_right top (zpow_pos two_pos f).le
            _ ≤ 2 ^ P * 2 ^ (e - 1 - 1) := by
                apply mul_le_mul_of_nonneg_left _ (pow_pos two_pos P).le
                exact zpow_le_zpow_right₀ one_le_two (by omega)
            _ = 2 ^ (P - 1) * 2 ^ (e - 1) := by
                rw [double, zpow_sub_one₀ two_ne_zero]
                field_simp
        have one : (1 : K) ≤ 2 ^ (P - 1) := one_le_pow₀ one_le_two
        have wide : (2 : K) ^ (e - 1) ≤ 2 ^ (P - 1) * 2 ^ (e - 1) :=
          le_mul_of_one_le_left small.le one
        calc (2 : K) ^ (e - 1) ≤ ((2 ^ P : ℤ) : K) * 2 ^ (e - 1) - h * 2 ^ f := by
              push_cast
              rw [double]
              linarith
          _ ≤ |((2 ^ P : ℤ) : K) * 2 ^ (e - 1) - h * 2 ^ f| := le_abs_self _

/-- The nearest number is the one from which all others are farther than twice. -/
theorem Nearest.eq_of_apart (nearest : Nearest P low y n p) (rep : Representable P low x)
    (apart : ∀ z, Representable P low z → z ≠ x → 2 * |y - x| < |x - z|) : (n : K) * 2 ^ p = x := by
  by_contra other
  have far := apart ((n : K) * 2 ^ p) ⟨n, p, nearest.size, nearest.exponent, rfl⟩ other
  have near := nearest.near x rep
  have triangle : |x - (n : K) * 2 ^ p| ≤ |x - y| + |y - (n : K) * 2 ^ p| := abs_sub_le _ _ _
  rw [abs_sub_comm x y] at triangle
  linarith

/-- A number with all its bits is the nearest one to everything that is as near to it as the
precision allows. -/
theorem Nearest.eq_of_close (some : 0 < P) (nearest : Nearest P low y n p)
    (rep : Representable P low ((m : K) * 2 ^ e)) (normal : 2 ^ (P - 1) ≤ m) (size : m ≤ 2 ^ P)
    (close : 2 * |y - (m : K) * 2 ^ e| * 2 ^ P < (m : K) * 2 ^ e) : (n : K) * 2 ^ p =
    (m : K) * 2 ^ e :=
  nearest.eq_of_apart rep fun z found other => by
    have far := found.apart some normal size other
    have unit : (0 : K) < 2 ^ P := pow_pos two_pos P
    exact lt_of_mul_lt_mul_right (close.trans_le far) unit.le

end UnixV7
