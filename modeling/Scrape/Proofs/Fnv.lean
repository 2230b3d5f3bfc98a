/-
Bytes that cannot cancel.

A step of the hash first changes the lowest byte of the state and then multiplies
by the prime.  The prime is odd, so equal bytes never bring two states together
that different bytes have put apart (`fold_inj`).

Different bytes could.  Where two runs first differ, their states come to differ by
a few units times the prime, and every later byte moves that difference by a few
units more before the next multiplication.  So the difference behind four bytes is
a number with the digits `d`, `e₂`, `e₃`, `e₄` to the base `2 ^ 40 + 435`, and the
states have met again if `2 ^ 64` divides it.  That asks two things of the digits
at once, one of the part below `2 ^ 40` and one of the 24 bits above it, and four
digits as small as bytes make them cannot grant both (`not_dvd_of_small`).
-/
import Mathlib.Algebra.Order.Ring.Int
import Mathlib.Data.LawfulXor.Basic
import Mathlib.Data.List.Basic
import Mathlib.Tactic.Ring
import Scrape.Fnv

namespace Scrape.Fnv

/-! ## The bytes of a word -/

/-- The eight bytes of a number below `2 ^ 64`, the least significant one first. -/
def octets (n : Nat) : List UInt8 :=
  (List.range 8).map fun i => UInt8.ofNat (n / 256 ^ i)

theorem wordBytes_eq_octets (w : UInt64) : wordBytes w = octets w.toNat := by
  simp only [wordBytes, octets, List.range_succ, List.range_zero, List.nil_append,
    List.cons_append, List.map_cons, List.map_nil, List.cons.injEq, ← UInt8.toNat_inj,
    UInt64.toNat_toUInt8, UInt64.toNat_shiftRight, UInt64.reduceToNat, Nat.reduceMod,
    Nat.shiftRight_eq_div_pow, Nat.reducePow, UInt8.toNat_ofNat', Nat.div_one, and_true]

/-- Words that agree from some byte on have the same bytes from there on. -/
theorem getElem?_octets_of_div_eq {n n' k : Nat} (h : n / 256 ^ k = n' / 256 ^ k) {i : Nat}
    (hi : k ≤ i) : (octets n)[i]? = (octets n')[i]? := by
  have hdiv : n / 256 ^ i = n' / 256 ^ i := by
    rw [← Nat.add_sub_cancel' hi, Nat.pow_add, ← Nat.div_div_eq_div_mul,
      ← Nat.div_div_eq_div_mul, h]
  simp only [octets, List.getElem?_map]
  cases hrange : (List.range 8)[i]? with
  | none => rfl
  | some j =>
      obtain ⟨hlt, rfl⟩ := List.getElem?_eq_some_iff.mp hrange
      rw [List.getElem_range, Option.map_some, Option.map_some, hdiv]

/-! ## Equal bytes -/

/-- A step can be undone, the prime being odd. -/
theorem step_inj {h h' : UInt64} {b : UInt8} (heq : step h b = step h' b) : h = h' := by
  have hinverse : prime * 0xCE965057AFF6957B = 1 := by decide
  have hxor : h ^^^ b.toUInt64 = h' ^^^ b.toUInt64 := by
    have hmul := congrArg (· * 0xCE965057AFF6957B) heq
    simpa only [step, UInt64.mul_assoc, hinverse, UInt64.mul_one] using hmul
  exact (xor_left_involutive b.toUInt64).injective hxor

/-- States that differ stay different when equal bytes follow. -/
theorem fold_inj {h h' : UInt64} {bytes : List UInt8} (heq : fold h bytes = fold h' bytes) :
    h = h' := by
  induction bytes generalizing h h' with
  | nil => exact heq
  | cons b bytes ih => exact step_inj (ih heq)

/-! ## How far apart states are -/

/-- Two states differ by `d`, up to a multiple of `2 ^ 64`. -/
def Gap (h h' : UInt64) (d : ℤ) : Prop :=
  (2 ^ 64 : ℤ) ∣ h.toNat - h'.toNat - d

/-- A byte changes the lowest byte of a state only. -/
theorem toNat_xor_div (h : UInt64) (b : UInt8) :
    (h ^^^ b.toUInt64).toNat / 2 ^ 8 = h.toNat / 2 ^ 8 := by
  rw [UInt64.toNat_xor, UInt8.toNat_toUInt64, Nat.xor_div_two_pow,
    Nat.div_eq_of_lt b.toNat_lt, Nat.xor_zero]

theorem Gap.mul_prime {h h' : UInt64} {d : ℤ} (hgap : Gap h h' d) :
    Gap (h * prime) (h' * prime) (d * (2 ^ 40 + 435)) := by
  have hprime : prime.toNat = 2 ^ 40 + 435 := rfl
  rw [Gap, UInt64.toNat_mul, UInt64.toNat_mul, hprime]
  unfold Gap at hgap
  omega

/-- Two bytes put one state apart by less than a byte, times the prime. -/
theorem exists_gap_of_ne (h : UInt64) {a b : UInt8} (hne : a ≠ b) :
    ∃ d, d ≠ 0 ∧ (-255 ≤ d ∧ d ≤ 255) ∧ Gap (step h a) (step h b) (d * (2 ^ 40 + 435)) := by
  have ha := toNat_xor_div h a
  have hb := toNat_xor_div h b
  have hxor : (h ^^^ a.toUInt64).toNat ≠ (h ^^^ b.toUInt64).toNat := by
    intro heq
    have hword := (xor_right_involutive h).injective (UInt64.toNat_inj.mp heq)
    exact hne (UInt8.toUInt64_inj.mp hword)
  refine ⟨(h ^^^ a.toUInt64).toNat - (h ^^^ b.toUInt64).toNat, ?_, ?_, ?_⟩
  · omega
  · omega
  · apply Gap.mul_prime
    rw [Gap, sub_self]
    exact dvd_zero _

/-- Any two bytes move a difference by less than two bytes before it is multiplied. -/
theorem Gap.step {h h' : UInt64} {d : ℤ} (hgap : Gap h h' d) (a b : UInt8) :
    ∃ e, (-510 ≤ e ∧ e ≤ 510) ∧
      Gap (Fnv.step h a) (Fnv.step h' b) ((d + e) * (2 ^ 40 + 435)) := by
  have ha := toNat_xor_div h a
  have hb := toNat_xor_div h' b
  refine ⟨((h ^^^ a.toUInt64).toNat - h.toNat) - ((h' ^^^ b.toUInt64).toNat - h'.toNat), ?_, ?_⟩
  · omega
  · apply Gap.mul_prime
    unfold Gap at hgap ⊢
    omega

/-- The difference behind two runs of bytes, digit by digit. -/
theorem Gap.fold {h h' : UInt64} {d : ℤ} (hgap : Gap h h' d) {u v : List UInt8}
    (hlength : u.length = v.length) :
    ∃ digits : List ℤ, digits.length = u.length ∧ (∀ e ∈ digits, -510 ≤ e ∧ e ≤ 510) ∧
      Gap (Fnv.fold h u) (Fnv.fold h' v)
        (digits.foldl (fun d e => (d + e) * (2 ^ 40 + 435)) d) := by
  induction u generalizing h h' d v with
  | nil =>
      obtain rfl := List.length_eq_zero_iff.mp hlength.symm
      exact ⟨[], rfl, List.forall_mem_nil _, hgap⟩
  | cons a u ih =>
      cases v with
      | nil => exact absurd hlength (Nat.succ_ne_zero _)
      | cons b v =>
          obtain ⟨e, he, hstep⟩ := hgap.step a b
          obtain ⟨digits, hdigits, hsmall, hfold⟩ := ih hstep (Nat.succ.inj hlength)
          exact ⟨e :: digits, congrArg Nat.succ hdigits, List.forall_mem_cons.mpr ⟨he, hsmall⟩,
            hfold⟩

/-! ## Four small digits -/

theorem parts_of_dvd {high low : ℤ} (h : (2 ^ 64 : ℤ) ∣ 2 ^ 40 * high + low)
    (hlow : -2 ^ 40 < low ∧ low < 2 ^ 40) : 2 ^ 24 ∣ high ∧ low = 0 := by
  omega

/-- Digits to the base 435 that stand for zero are carried over from one another. -/
theorem carries_of_eq_zero {d e₂ e₃ e₄ : ℤ} (h₃ : -510 ≤ e₃ ∧ e₃ ≤ 510)
    (h₄ : -510 ≤ e₄ ∧ e₄ ≤ 510) (h : 435 ^ 3 * d + 435 ^ 2 * e₂ + 435 * e₃ + e₄ = 0) :
    ∃ f g, (-1 ≤ f ∧ f ≤ 1) ∧ (-1 ≤ g ∧ g ≤ 1) ∧ e₂ = -435 * d - g ∧ e₃ = 435 * g - f := by
  obtain ⟨f, rfl⟩ : (435 : ℤ) ∣ e₄ := by omega
  obtain ⟨g, hg⟩ : (435 : ℤ) ∣ e₃ + f := by omega
  obtain rfl : e₃ = 435 * g - f := by omega
  refine ⟨f, g, ?_, ?_, ?_, rfl⟩
  · omega
  · omega
  · omega

theorem not_dvd_of_small {d e₂ e₃ e₄ : ℤ} (hne : d ≠ 0) (hd : -255 ≤ d ∧ d ≤ 255)
    (h₂ : -510 ≤ e₂ ∧ e₂ ≤ 510) (h₃ : -510 ≤ e₃ ∧ e₃ ≤ 510) (h₄ : -510 ≤ e₄ ∧ e₄ ≤ 510) :
    ¬ (2 ^ 64 : ℤ) ∣ ((d * (2 ^ 40 + 435) + e₂) * (2 ^ 40 + 435) + e₃) * (2 ^ 40 + 435) + e₄ := by
  intro h
  have hsplit :
      ((d * (2 ^ 40 + 435) + e₂) * (2 ^ 40 + 435) + e₃) * (2 ^ 40 + 435) + e₄ =
        2 ^ 64 * ((2 ^ 56 + 3 * 435 * 2 ^ 16) * d + 2 ^ 16 * e₂) +
          (2 ^ 40 * (3 * 435 ^ 2 * d + 2 * 435 * e₂ + e₃) +
            (435 ^ 3 * d + 435 ^ 2 * e₂ + 435 * e₃ + e₄)) := by
    ring
  rw [hsplit, Int.dvd_add_right (Int.dvd_mul_right _ _)] at h
  obtain ⟨hhigh, hlow⟩ := parts_of_dvd h (by omega)
  obtain ⟨f, g, hf, hg, rfl, rfl⟩ := carries_of_eq_zero h₃ h₄ hlow
  -- the second digit is small, and so the first one is a unit
  have hunit : -1 ≤ d ∧ d ≤ 1 := by omega
  have hsum : 3 * 435 ^ 2 * d + 2 * 435 * (-435 * d - g) + (435 * g - f) =
      435 ^ 2 * d - 435 * g - f := by
    ring
  rw [hsum] at hhigh
  have hzero : 435 ^ 2 * d - 435 * g - f = 0 := by
    refine Int.eq_zero_of_abs_lt_dvd hhigh (abs_lt.mpr ?_)
    omega
  omega

/-! ## Windows of four bytes -/

theorem fold_cons_ne_of_three (h : UInt64) {a b : UInt8} (hne : a ≠ b) {u v : List UInt8}
    (hu : u.length = 3) (hv : v.length = 3) : fold h (a :: u) ≠ fold h (b :: v) := by
  intro heq
  obtain ⟨d, hd0, hd, hgap⟩ := exists_gap_of_ne h hne
  obtain ⟨digits, hlength, hsmall, hfold⟩ := hgap.fold (hu.trans hv.symm)
  obtain ⟨e₂, e₃, e₄, rfl⟩ := List.length_eq_three.mp (hlength.trans hu)
  rw [fold_cons, fold_cons] at heq
  rw [Gap, heq, sub_self, zero_sub, Int.dvd_neg] at hfold
  -- the last factor has nothing in common with a power of two
  have hdvd := Int.dvd_of_dvd_mul_left_of_gcd_one hfold (by decide)
  exact not_dvd_of_small hd0 hd (hsmall e₂ (by simp)) (hsmall e₃ (by simp))
    (hsmall e₄ (by simp)) hdvd

theorem fold_cons_ne (h : UInt64) {a b : UInt8} (hne : a ≠ b) {u v : List UInt8}
    (hlength : u.length = v.length) (hthree : u.length ≤ 3) :
    fold h (a :: u) ≠ fold h (b :: v) := by
  intro heq
  have hfill : fold h (a :: (u ++ List.replicate (3 - u.length) 0)) =
      fold h (b :: (v ++ List.replicate (3 - u.length) 0)) := by
    rw [← List.cons_append, ← List.cons_append, fold_append, fold_append, heq]
  refine fold_cons_ne_of_three h hne ?_ ?_ hfill
  · rw [List.length_append, List.length_replicate]
    omega
  · rw [List.length_append, List.length_replicate]
    omega

/-- Two runs of at most four bytes lead from one state to one state only if they are the same. -/
theorem fold_ne_of_length_le_four (h : UInt64) {w w' : List UInt8} (hlength : w.length = w'.length)
    (hfour : w.length ≤ 4) (hne : w ≠ w') : fold h w ≠ fold h w' := by
  induction w generalizing h w' with
  | nil =>
      obtain rfl := List.length_eq_zero_iff.mp hlength.symm
      exact absurd rfl hne
  | cons a w ih =>
      cases w' with
      | nil => exact absurd hlength (Nat.succ_ne_zero _)
      | cons b w' =>
          have hrest := Nat.succ.inj hlength
          by_cases hab : a = b
          · subst hab
            refine ih (step h a) hrest (Nat.le_of_succ_le hfour) ?_
            rintro rfl
            exact hne rfl
          · exact fold_cons_ne h hab hrest (Nat.le_of_succ_le_succ hfour)

/-- Such runs lead to different states also within equal bytes. -/
theorem fold_ne_of_window (h : UInt64) (p s : List UInt8) {w w' : List UInt8}
    (hlength : w.length = w'.length) (hfour : w.length ≤ 4) (hne : w ≠ w') :
    fold h (p ++ w ++ s) ≠ fold h (p ++ w' ++ s) := by
  intro heq
  rw [fold_append, fold_append, fold_append, fold_append] at heq
  exact fold_ne_of_length_le_four (fold h p) hlength hfour hne (fold_inj heq)

/-- Runs of bytes of one length that differ, and that differ inside four consecutive bytes only. -/
structure Neighbours (m m' : List UInt8) : Prop where
  ne : m ≠ m'
  length_eq : m.length = m'.length
  window : ∃ k, ∀ i, i < k ∨ k + 4 ≤ i → m[i]? = m'[i]?

theorem Neighbours.fold_ne {m m' : List UInt8} (hn : Neighbours m m') (h : UInt64) :
    fold h m ≠ fold h m' := by
  obtain ⟨k, hk⟩ := hn.window
  have hfront : m.take k = m'.take k := by
    apply List.ext_getElem?
    intro i
    rw [List.getElem?_take, List.getElem?_take]
    split
    · next hi => exact hk i (.inl hi)
    · rfl
  have hback : m.drop (k + 4) = m'.drop (k + 4) := by
    apply List.ext_getElem?
    intro i
    rw [List.getElem?_drop, List.getElem?_drop]
    exact hk _ (.inr (Nat.le_add_right _ _))
  have hsplit (l : List UInt8) : l = l.take k ++ (l.drop k).take 4 ++ l.drop (k + 4) := by
    rw [← List.take_add, List.take_append_drop]
  rw [hsplit m, hsplit m', ← hfront, ← hback]
  refine fold_ne_of_window h _ _ ?_ (List.length_take_le _ _) ?_
  · rw [List.length_take, List.length_take, List.length_drop, List.length_drop, hn.length_eq]
  · intro hwindow
    apply hn.ne
    rw [hsplit m, hsplit m', hfront, hwindow, hback]

end Scrape.Fnv
