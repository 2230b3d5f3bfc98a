/-
Values as they are exposed.

A value is exposed as the shortest decimal of a double, and two roundings lie on
that way.  The first takes a number to the double that is nearest to it
(`nearest_ofNat`).  The second takes the double to a decimal in its interval.  The
search for the shortest one comes down from a grid of many tens, and at the grid
of the units or above it every such double has a point in its interval
(`exists_grid`); so what is found has no fraction, and is written without one.

Up to `2 ^ 53` neither rounding changes anything.  The number is a double, whose
step is at most one, and no other whole number lies in the interval of such a
double (`Whole.eq_of_holds`).
-/
import Mathlib.Algebra.GroupWithZero.Nat
import Scrape.Metrics.Exposition

namespace Scrape

namespace Magnitude

variable {m : Magnitude} {n : Nat}

/-! ## The double of a number -/

/-- What a whole number is rounded to goes by at most half a unit in either direction. -/
theorem roundDiv_near (n : Nat) {unit : Nat} (h : 0 < unit) :
    2 * (roundDiv n unit * unit) ≤ 2 * n + unit ∧ 2 * n ≤ 2 * (roundDiv n unit * unit) + unit := by
  have hdiv := Nat.div_add_mod' n unit
  have hmod := Nat.mod_lt n h
  rw [roundDiv]
  split
  · omega
  · rw [Nat.add_one_mul (n / unit)]
    omega

theorem roundDiv_one (n : Nat) : roundDiv n 1 = n := by
  have hnear := roundDiv_near n Nat.one_pos
  omega

/-- The exponent of a number's leading bit, with that of the last bit of a mantissa as its
zero. -/
def lead (n : Nat) : Int := n.log2 - 52

/-- In steps of its leading bit's binade a number has 53 bits. -/
theorem bits_of_lead (h : n ≠ 0) :
    hiddenBit * 2 ^ (lead n).toNat ≤ n * 2 ^ (-lead n).toNat ∧
      n * 2 ^ (-lead n).toNat < 2 * hiddenBit * 2 ^ (lead n).toNat := by
  have hle := Nat.log2_self_le h
  have hlt := Nat.lt_log2_self (n := n)
  have hbit : hiddenBit = 2 ^ 52 := rfl
  have hbit' : 2 * hiddenBit = 2 ^ 53 := rfl
  rw [hbit', hbit, ← Nat.pow_add, ← Nat.pow_add]
  rcases Nat.le_total 52 n.log2 with hlog | hlog
  · have hdown : (-lead n).toNat = 0 := by unfold lead; omega
    have hup : 52 + (lead n).toNat = n.log2 := by unfold lead; omega
    have hup' : 53 + (lead n).toNat = n.log2 + 1 := by omega
    rw [hdown, hup, hup', Nat.pow_zero, Nat.mul_one]
    exact ⟨hle, hlt⟩
  · have hup : (lead n).toNat = 0 := by unfold lead; omega
    have hdown : n.log2 + (-lead n).toNat = 52 := by unfold lead; omega
    have hdown' : n.log2 + 1 + (-lead n).toNat = 53 := by omega
    rw [hup]
    constructor
    · calc 2 ^ (52 + 0) = 2 ^ n.log2 * 2 ^ (-lead n).toNat := by rw [← Nat.pow_add, hdown]
        _ ≤ n * 2 ^ (-lead n).toNat := Nat.mul_le_mul_right _ hle
    · calc n * 2 ^ (-lead n).toNat
          < 2 ^ (n.log2 + 1) * 2 ^ (-lead n).toNat :=
            Nat.mul_lt_mul_of_pos_right hlt (Nat.two_pow_pos _)
        _ = 2 ^ (53 + 0) := by rw [← Nat.pow_add, hdown']

/-- What makes a double the nearest one to a number other than 0: it has 53 bits, and it is no
further from the number than half a step of the number's binade. -/
structure Nearest (m : Magnitude) (n : Nat) : Prop where
  least : hiddenBit ≤ m.mantissa
  greatest : m.mantissa < 2 * hiddenBit
  above : 2 * (m.mantissa * 2 ^ m.exponent.toNat) ≤
    2 * (n * 2 ^ (-m.exponent).toNat) + 2 ^ (lead n).toNat
  below : 2 * (n * 2 ^ (-m.exponent).toNat) ≤
    2 * (m.mantissa * 2 ^ m.exponent.toNat) + 2 ^ (lead n).toNat

theorem ofNat_cases (n : Nat) :
    (roundDiv (n * 2 ^ (-lead n).toNat) (2 ^ (lead n).toNat) = 2 * hiddenBit ∧
      ofNat n = ⟨hiddenBit, lead n + 1, true⟩) ∨
    (roundDiv (n * 2 ^ (-lead n).toNat) (2 ^ (lead n).toNat) ≠ 2 * hiddenBit ∧
      ∃ narrow, ofNat n =
        ⟨roundDiv (n * 2 ^ (-lead n).toNat) (2 ^ (lead n).toNat), lead n, narrow⟩) := by
  by_cases h : roundDiv (n * 2 ^ (-lead n).toNat) (2 ^ (lead n).toNat) = 2 * hiddenBit
  · exact .inl ⟨h, if_pos h⟩
  · exact .inr ⟨h, _, if_neg h⟩

/-- Only where bits are dropped can rounding bring one bit more. -/
theorem lead_pos_of_carry (h : n ≠ 0)
    (hcarry : roundDiv (n * 2 ^ (-lead n).toNat) (2 ^ (lead n).toNat) = 2 * hiddenBit) :
    0 < lead n := by
  refine Int.not_le.mp fun hneg => ?_
  obtain ⟨-, hgreatest⟩ := bits_of_lead h
  have hup : (lead n).toNat = 0 := by omega
  rw [hup, Nat.pow_zero, roundDiv_one] at hcarry
  rw [hup, Nat.pow_zero, hcarry] at hgreatest
  omega

/-- A number is rounded to the double that is nearest to it. -/
theorem nearest_ofNat (h : n ≠ 0) : (ofNat n).Nearest n := by
  obtain ⟨hleast, hgreatest⟩ := bits_of_lead h
  obtain ⟨habove, hbelow⟩ :=
    roundDiv_near (n * 2 ^ (-lead n).toNat) (Nat.two_pow_pos (lead n).toNat)
  obtain ⟨hcarry, e⟩ | ⟨hcarry, narrow, e⟩ := ofNat_cases n
  · have hlead := Int.le_of_lt (lead_pos_of_carry h hcarry)
    have hdown : (-lead n).toNat = 0 := by omega
    have hdown' : (-(lead n + 1)).toNat = 0 := by omega
    have hup : (lead n + 1).toNat = (lead n).toNat + 1 := by omega
    have hdouble : hiddenBit * 2 ^ ((lead n).toNat + 1) = 2 * hiddenBit * 2 ^ (lead n).toNat := by
      rw [Nat.pow_succ', ← Nat.mul_assoc, Nat.mul_comm hiddenBit]
    rw [hcarry, hdown, ← hdouble, ← hup, ← hdown'] at habove hbelow
    rw [e]
    exact ⟨Nat.le_refl _, (by decide : hiddenBit < 2 * hiddenBit), habove, hbelow⟩
  · rw [e]
    generalize roundDiv (n * 2 ^ (-lead n).toNat) (2 ^ (lead n).toNat) = r at *
    have hpos : 0 < 2 ^ (lead n).toNat := Nat.two_pow_pos _
    refine ⟨Nat.not_lt.mp fun hlt => ?_, Nat.not_le.mp fun hge => ?_, habove, hbelow⟩
    · have hmul := Nat.mul_le_mul_right (2 ^ (lead n).toNat) (show r + 1 ≤ hiddenBit from hlt)
      rw [Nat.add_one_mul r] at hmul
      omega
    · have hmul := Nat.mul_le_mul_right (2 ^ (lead n).toNat)
        (show 2 * hiddenBit + 1 ≤ r from Nat.lt_of_le_of_ne hge (Ne.symm hcarry))
      rw [Nat.add_one_mul (2 * hiddenBit)] at hmul
      omega

theorem exponent_ofNat (h : n ≠ 0) :
    -52 ≤ (ofNat n).exponent ∧ (n < 2 ^ 53 → (ofNat n).exponent ≤ 0) ∧
      (n < 2 ^ 64 → (ofNat n).exponent ≤ 12) := by
  have hlog {k : Nat} (hlt : n < 2 ^ k) : n.log2 < k := (Nat.log2_lt h).mpr hlt
  have hlead : lead n = n.log2 - 52 := rfl
  obtain ⟨hcarry, e⟩ | ⟨-, narrow, e⟩ := ofNat_cases n
  · have hpos := lead_pos_of_carry h hcarry
    rw [e]
    refine ⟨(?_ : -52 ≤ lead n + 1), fun hlt => (?_ : lead n + 1 ≤ 0),
      fun hlt => (?_ : lead n + 1 ≤ 12)⟩
    · omega
    · have := hlog hlt
      omega
    · have := hlog hlt
      omega
  · rw [e]
    refine ⟨(?_ : -52 ≤ lead n), fun hlt => (?_ : lead n ≤ 0), fun hlt => (?_ : lead n ≤ 12)⟩
    · omega
    · have := hlog hlt
      omega
    · have := hlog hlt
      omega

/-! ## The decimals of a double -/

section Grid

variable {k : Int} {d : Nat}

theorem scale_pos (m : Magnitude) (k : Int) : 0 < m.scale k :=
  Nat.mul_pos (Nat.pow_pos (by decide)) (Nat.pow_pos (by decide))

theorem unit_pos (m : Magnitude) (k : Int) : 0 < m.unit k :=
  Nat.mul_pos (Nat.pow_pos (by decide)) (Nat.pow_pos (by decide))

/-- What lies less than a quarter step below the double, or less than half a step above it,
belongs to it. -/
theorem holds_of_lt (hpos : 0 < m.mantissa)
    (hlow : 4 * m.mantissa * m.scale k < d * m.unit k + m.scale k)
    (hhigh : d * m.unit k < (4 * m.mantissa + 2) * m.scale k) : m.holds k d = true := by
  have hbelow : (4 * m.mantissa - if m.narrowBelow then 1 else 2) * m.scale k +
      m.scale k ≤ 4 * m.mantissa * m.scale k := by
    rw [← Nat.add_one_mul]
    refine Nat.mul_le_mul_right _ ?_
    split <;> omega
  rw [holds]
  split
  all_goals
    rw [Bool.and_eq_true, decide_eq_true_eq, decide_eq_true_eq]
    omega

theorem pos_of_holds (hpos : 0 < m.mantissa) (h : m.holds k d = true) : 0 < d := by
  have hlow : 0 < (4 * m.mantissa - if m.narrowBelow then 1 else 2) * m.scale k := by
    refine Nat.mul_pos ?_ (m.scale_pos k)
    split <;> omega
  refine Nat.pos_of_ne_zero fun hzero => ?_
  rw [holds, hzero, Nat.zero_mul] at h
  split at h
  all_goals
    rw [Bool.and_eq_true, decide_eq_true_eq, decide_eq_true_eq] at h
    omega

theorem holds_of_onGrid? {x : Decimal} (hx : m.onGrid? k = some x) :
    x.exponent = k ∧ m.holds k x.digits = true := by
  simp only [onGrid?] at hx
  generalize 4 * m.mantissa * m.scale k / m.unit k = d at hx
  split at hx
  · next hd hd' =>
    cases hx
    refine ⟨rfl, ?_⟩
    simp only [nearer]
    repeat' split
    all_goals assumption
  · next hd _ =>
    cases hx
    exact ⟨rfl, hd⟩
  · next _ hd =>
    cases hx
    exact ⟨rfl, hd⟩
  · cases hx

/-- A grid has a point in the interval if the double is one of its points, or its step is no
longer than half a step of the double. -/
theorem isSome_onGrid? (hpos : 0 < m.mantissa)
    (h : m.unit k ∣ 4 * m.mantissa * m.scale k ∨ m.unit k ≤ 2 * m.scale k) :
    (m.onGrid? k).isSome = true := by
  have hscale := m.scale_pos k
  have hdiv := Nat.div_add_mod' (4 * m.mantissa * m.scale k) (m.unit k)
  have hmod := Nat.mod_lt (4 * m.mantissa * m.scale k) (m.unit_pos k)
  have hwidth : (4 * m.mantissa + 2) * m.scale k =
      4 * m.mantissa * m.scale k + 2 * m.scale k := Nat.add_mul _ _ _
  simp only [onGrid?]
  generalize 4 * m.mantissa * m.scale k / m.unit k = d at *
  rcases Nat.eq_zero_or_pos (4 * m.mantissa * m.scale k % m.unit k) with hzero | hrest
  · have hd : m.holds k d = true := holds_of_lt hpos (by omega) (by omega)
    rw [hd]
    cases m.holds k (d + 1) <;> rfl
  · have hunit := h.resolve_left fun hdvd => Nat.ne_of_gt hrest (Nat.mod_eq_zero_of_dvd hdvd)
    have hd : m.holds k (d + 1) = true := by
      refine holds_of_lt hpos ?_ ?_
      all_goals
        rw [Nat.add_one_mul d]
        omega
    rw [hd]
    cases m.holds k d <;> rfl

/-- The search finds a decimal that belongs to the double, at the latest on a grid that is
known to have one. -/
theorem shortest_of_isSome (hk : k ≤ m.top) (hk' : m.top < k + 20)
    (h : (m.onGrid? k).isSome = true) :
    k ≤ m.shortest.exponent ∧ m.holds m.shortest.exponent m.shortest.digits = true := by
  obtain ⟨i, hi⟩ := Int.eq_ofNat_of_zero_le (Int.sub_nonneg_of_le hk)
  -- the grids from the coarsest one down to this one
  have hrange : List.range 20 = List.range (i + 1) ++ (List.range (19 - i)).map (i + 1 + ·) := by
    rw [← List.range_add]
    congr 1
    omega
  have hsome : ((List.range (i + 1)).findSome? fun j => m.onGrid? (m.top - Int.ofNat j)).isSome =
      true := by
    refine List.findSome?_isSome_iff.mpr ⟨i, List.self_mem_range_succ, ?_⟩
    rw [Int.ofNat_eq_natCast, ← hi, Int.sub_sub_self]
    exact h
  obtain ⟨x, hx⟩ := Option.isSome_iff_exists.mp hsome
  have hshortest : m.shortest = x := by
    rw [shortest, hrange, List.findSome?_append, hx]
    rfl
  obtain ⟨j, hj, hfound⟩ := List.exists_of_findSome?_eq_some hx
  obtain ⟨hexponent, hdigits⟩ := holds_of_onGrid? hfound
  rw [hshortest, hexponent]
  refine ⟨?_, hdigits⟩
  have hlt := List.mem_range.mp hj
  rw [Int.ofNat_eq_natCast]
  omega

end Grid

/-! ## Doubles that are whole numbers -/

/-- The double is the number `n`, in steps of at most one. -/
structure Whole (m : Magnitude) (n : Nat) : Prop where
  fine : m.exponent ≤ 0
  value : m.mantissa = n * 2 ^ (-m.exponent).toNat

theorem whole_ofNat (h : n ≠ 0) (hfine : (ofNat n).exponent ≤ 0) : (ofNat n).Whole n := by
  obtain ⟨hcarry, e⟩ | ⟨-, narrow, e⟩ := ofNat_cases n
  · have hpos := lead_pos_of_carry h hcarry
    rw [e] at hfine
    exact absurd (show lead n + 1 ≤ 0 from hfine) (by omega)
  · rw [e] at hfine
    have hup : (lead n).toNat = 0 := Int.toNat_of_nonpos hfine
    rw [hup, Nat.pow_zero, roundDiv_one] at e
    rw [e]
    exact ⟨hfine, rfl⟩

theorem eq_of_near {x n unit : Nat} (hunit : 2 < unit) (hlow : n * unit ≤ x * unit + 2)
    (hhigh : x * unit ≤ n * unit + 2) : x = n := by
  obtain hlt | rfl | hgt := Nat.lt_trichotomy x n
  · have hmul := Nat.mul_le_mul_right unit hlt
    rw [Nat.succ_mul] at hmul
    omega
  · rfl
  · have hmul := Nat.mul_le_mul_right unit hgt
    rw [Nat.succ_mul] at hmul
    omega

namespace Whole

variable {k : Int} (h : m.Whole n)
include h

theorem scale_eq (hk : 0 ≤ k) : m.scale k = 1 := by
  have hfine := h.fine
  have htwo : (m.exponent - 2).toNat = 0 := by omega
  have hten : (-k).toNat = 0 := by omega
  rw [scale, htwo, hten]

theorem unit_eq (k : Int) : m.unit k = 10 ^ k.toNat * (4 * 2 ^ (-m.exponent).toNat) := by
  have hfine := h.fine
  have htwo : (2 - m.exponent).toNat = (-m.exponent).toNat + 2 := by omega
  rw [unit, htwo, Nat.pow_eq, Nat.pow_eq, Nat.pow_add, Nat.mul_comm, Nat.mul_comm (2 ^ _) (2 ^ 2)]

/-- Of the decimals without a fraction only the number belongs to the double. -/
theorem eq_of_holds (hk : 0 ≤ k) {d : Nat} (hholds : m.holds k d = true) :
    d * 10 ^ k.toNat = n := by
  have hunit : 2 < 4 * 2 ^ (-m.exponent).toNat := by
    have hpos := Nat.two_pow_pos (-m.exponent).toNat
    omega
  have hvalue : 4 * m.mantissa = n * (4 * 2 ^ (-m.exponent).toNat) := by
    rw [h.value, Nat.mul_left_comm]
  simp only [holds, h.scale_eq hk, h.unit_eq, hvalue, Nat.mul_one, ← Nat.mul_assoc d] at hholds
  generalize d * 10 ^ k.toNat = x at *
  generalize hbelow : (if m.narrowBelow then 1 else 2) = below at hholds
  have hstep : below ≤ 2 := by
    split at hbelow <;> omega
  split at hholds
  all_goals
    rw [Bool.and_eq_true, decide_eq_true_eq, decide_eq_true_eq] at hholds
    exact eq_of_near hunit (by omega) (by omega)

/-- It is one of the units. -/
theorem dvd_unit : m.unit 0 ∣ 4 * m.mantissa * m.scale 0 := by
  rw [h.scale_eq (Int.le_refl 0), h.unit_eq, h.value, Int.toNat_zero, Nat.pow_zero, Nat.one_mul,
    Nat.mul_one, Nat.mul_left_comm]
  exact Nat.dvd_mul_left _ _

end Whole

/-! ## The shortest decimal of a number -/

theorem Nearest.mantissa_pos (h : m.Nearest n) : 0 < m.mantissa :=
  Nat.lt_of_lt_of_le (by decide) h.least

theorem Nearest.top_eq (h : m.Nearest n) : m.top = (m.exponent + 53) * 30103 / 100000 + 1 := by
  have hlog : m.mantissa.log2 = 52 :=
    (Nat.log2_eq_iff (Nat.ne_of_gt h.mantissa_pos)).mpr ⟨h.least, h.greatest⟩
  rw [top, hlog, Int.ofNat_eq_natCast]
  omega

/-- A grid of whole numbers that has a point in the interval, within reach of the search. -/
theorem exists_grid (h : n ≠ 0) (hlt : n < 2 ^ 64) :
    ∃ k, 0 ≤ k ∧ k ≤ (ofNat n).top ∧ (ofNat n).top < k + 20 ∧
      ((ofNat n).onGrid? k).isSome = true := by
  have hnear := nearest_ofNat h
  have htop := hnear.top_eq
  obtain ⟨hleast, -, hgreatest⟩ := exponent_ofNat h
  have hgreatest := hgreatest hlt
  by_cases hfine : (ofNat n).exponent ≤ 0
  · refine ⟨0, Int.le_refl 0, by omega, by omega, ?_⟩
    exact isSome_onGrid? hnear.mantissa_pos (.inl (whole_ofNat h hfine).dvd_unit)
  by_cases hcoarse : (ofNat n).exponent ≤ 10
  · -- from here on a step is two units or more
    refine ⟨0, Int.le_refl 0, by omega, by omega, isSome_onGrid? hnear.mantissa_pos (.inr ?_)⟩
    have hpos := Nat.two_pow_pos ((ofNat n).exponent - 2).toNat
    have hunit : (2 - (ofNat n).exponent).toNat ≤ 1 := by omega
    have hpow := Nat.pow_le_pow_right Nat.two_pos hunit
    simp only [unit, scale, Nat.pow_eq, Int.toNat_zero, Int.neg_zero, Nat.pow_zero, Nat.mul_one]
    omega
  · -- and here it is more than twenty
    refine ⟨1, by decide, by omega, by omega, isSome_onGrid? hnear.mantissa_pos (.inr ?_)⟩
    have hscale : 3 ≤ ((ofNat n).exponent - 2).toNat := by omega
    have hunit : (2 - (ofNat n).exponent).toNat = 0 := by omega
    have hten : (-1 : Int).toNat = 0 ∧ (1 : Int).toNat = 1 := by decide
    have hpow := Nat.pow_le_pow_right Nat.two_pos hscale
    simp only [unit, scale, Nat.pow_eq, hunit, hten, Nat.pow_zero, Nat.mul_one, Nat.pow_one]
    omega

/-- What is found for a number has no fraction. -/
theorem shortest_ofNat (h : n ≠ 0) (hlt : n < 2 ^ 64) :
    0 ≤ (ofNat n).shortest.exponent ∧
      (ofNat n).holds (ofNat n).shortest.exponent (ofNat n).shortest.digits = true := by
  obtain ⟨k, hk, hreach, hreach', hsome⟩ := exists_grid h hlt
  obtain ⟨hle, hholds⟩ := shortest_of_isSome hreach hreach' hsome
  exact ⟨Int.le_trans hk hle, hholds⟩

end Magnitude

namespace Metrics

/-! ## Texts -/

theorem natDigits_mul_pow {d : Nat} (hd : 0 < d) (k : Nat) :
    Decimal.natDigits (d * 10 ^ k) = Decimal.natDigits d ++ List.replicate k '0' := by
  induction k with
  | zero => rw [Nat.pow_zero, Nat.mul_one, List.replicate_zero, List.append_nil]
  | succ k ih =>
      have hpos : 0 < d * 10 ^ k := Nat.mul_pos hd (Nat.pow_pos (by decide))
      have hshift : d * 10 ^ (k + 1) = 10 * (d * 10 ^ k) + 0 := by
        rw [Nat.pow_succ', Nat.mul_left_comm, Nat.add_zero]
      rw [Decimal.natDigits, hshift, ← Nat.toDigits_append_toDigits (by decide) hpos (by decide),
        ← Decimal.natDigits, ih, List.replicate_succ', List.append_assoc]
      rfl

/-- The text of a number is that of a whole number that belongs to the nearest double. -/
theorem exists_naturalText {n : Nat} (h : n ≠ 0) (hlt : n < 2 ^ 64) :
    ∃ d k : Nat, 0 < d ∧ (Magnitude.ofNat n).holds k d = true ∧
      naturalText n = Decimal.natDigits (d * 10 ^ k) := by
  obtain ⟨hexponent, hholds⟩ := Magnitude.shortest_ofNat h hlt
  have hdigits := Magnitude.pos_of_holds (Magnitude.nearest_ofNat h).mantissa_pos hholds
  refine ⟨(Magnitude.ofNat n).shortest.digits, (Magnitude.ofNat n).shortest.exponent.toNat, hdigits,
    ?_, ?_⟩
  · rw [Int.toNat_of_nonneg hexponent]
    exact hholds
  · rw [naturalText, if_neg h, natDigits_mul_pow hdigits]

/-- Up to `2 ^ 53` a number is exposed as it is. -/
theorem naturalText_of_le {n : Nat} (h : n ≤ 2 ^ 53) : naturalText n = Decimal.natDigits n := by
  obtain hlt | rfl := Nat.lt_or_eq_of_le h
  · by_cases hne : n = 0
    · rw [hne]
      rfl
    · obtain ⟨d, k, -, hholds, htext⟩ :=
        exists_naturalText hne (Nat.lt_trans hlt (by decide))
      obtain ⟨-, hfine, -⟩ := Magnitude.exponent_ofNat hne
      have hwhole := Magnitude.whole_ofNat hne (hfine hlt)
      rw [htext, ← hwhole.eq_of_holds (Int.natCast_nonneg k) hholds, Int.toNat_natCast]
  · -- a double of which the one above is two further on
    decide +kernel

theorem signed_natDigits {v : Int} (h : v ≠ 0) {n : Nat} (hn : 0 < n) :
    String.ofList (if v < 0 then '-' :: Decimal.natDigits n else Decimal.natDigits n) =
      toString (v.sign * n) := by
  rcases Int.lt_or_gt_of_ne h with hneg | hpos
  · rw [if_pos hneg, Int.sign_eq_neg_one_of_neg hneg]
    obtain ⟨n, rfl⟩ := Nat.exists_eq_add_one_of_ne_zero (Nat.ne_of_gt hn)
    rw [← List.singleton_append, String.ofList_append, Int.neg_one_mul]
    rfl
  · rw [if_neg (Int.not_lt.mpr (Int.le_of_lt hpos)), Int.sign_eq_one_of_pos hpos, Int.one_mul]
    rfl

theorem exists_valueText {v : Int} (h : v ≠ 0) (hlt : v.natAbs < 2 ^ 64) :
    ∃ (m : Magnitude) (d k : Nat), m.Nearest v.natAbs ∧ m.holds k d = true ∧
      valueText v = toString (v.sign * (d * 10 ^ k : Nat)) := by
  have hne := Int.natAbs_ne_zero.mpr h
  obtain ⟨d, k, hd, hholds, htext⟩ := exists_naturalText hne hlt
  refine ⟨_, d, k, Magnitude.nearest_ofNat hne, hholds, ?_⟩
  rw [valueText, htext, signed_natDigits h (Nat.mul_pos hd (Nat.pow_pos (by decide)))]

theorem valueText_of_le {v : Int} (h : v.natAbs ≤ 2 ^ 53) : valueText v = toString v := by
  by_cases hzero : v = 0
  · rw [hzero]
    rfl
  · rw [valueText, naturalText_of_le h, signed_natDigits hzero (Int.natAbs_pos.mpr hzero),
      Int.sign_mul_natAbs]

end Metrics

end Scrape
