-- SUMMARY: Decimal numerals in texts: what `strtod` takes of a text, the double nearest to its value, and the conversion to `int`.
import Mathlib.Data.Int.Log
import Mathlib.Data.Rat.Floor
import Xiaozhi.Data.CString

/-!
# Numerals

`strtod` on texts of digits, signs, dots and exponent letters, for the decimal
point `.` and rounding to the nearest double. A double is the rational that it
stands for; there is no largest one, since every use cuts the value to an `int`.
-/

namespace Numeral

open CString

/-! ## Scanning -/

/-- An optional sign: whether it is a minus, and what follows. -/
def scanSign : Bytes → Bool × Bytes
  | c :: rest =>
    if c = byte '-' then (true, rest)
    else if c = byte '+' then (false, rest)
    else (false, c :: rest)
  | [] => (false, [])

/-- An optional decimal point, and the digits behind it. -/
def scanFraction : Bytes → Bytes × Bytes
  | c :: rest =>
    if c = byte '.' then (rest.takeWhile isDigit, rest.dropWhile isDigit) else ([], c :: rest)
  | [] => ([], [])

/-- An optional exponent; a letter without digits behind it is none. -/
def scanExponent : Bytes → Int × Bytes
  | c :: rest =>
    if c = byte 'e' ∨ c = byte 'E' then
      let (negative, digits) := scanSign rest
      if digits.takeWhile isDigit = [] then
        (0, c :: rest)
      else
        (if negative then -(readDigits digits : Int) else readDigits digits,
          digits.dropWhile isDigit)
    else
      (0, c :: rest)
  | [] => (0, [])

/-- The exact value of the numeral without a sign at the start of a text, and what
    follows it. -/
def scanUnsigned (text : Bytes) : Option (ℚ × Bytes) :=
  let whole := text.takeWhile isDigit
  let (fraction, rest) := scanFraction (text.dropWhile isDigit)
  if whole ++ fraction = [] then
    none
  else
    let (exponent, rest) := scanExponent rest
    some (readDigits (whole ++ fraction) * (10 : ℚ) ^ (exponent - fraction.length), rest)

/-- The exact value of the numeral at the start of a text, and what follows it. -/
def scan (text : Bytes) : Option (ℚ × Bytes) :=
  let (negative, text) := scanSign text
  (scanUnsigned text).map fun r => (if negative then -r.1 else r.1, r.2)

/-! ## Doubles -/

/-- The nearest integer, and of two the even one. -/
def roundEven (x : ℚ) : Int :=
  let rest := x - ⌊x⌋
  if rest < 1 / 2 then ⌊x⌋
  else if 1 / 2 < rest then ⌊x⌋ + 1
  else if ⌊x⌋ % 2 = 0 then ⌊x⌋
  else ⌊x⌋ + 1

/-- Neighbouring doubles about `x` are `2 ^ quantum x` apart. -/
def quantum (x : ℚ) : Int := max (Int.log 2 |x| - 52) (-1074)

/-- The double nearest to `x`. -/
def nearestDouble (x : ℚ) : ℚ := roundEven (x / 2 ^ quantum x) * 2 ^ quantum x

/-- `strtod`. -/
def strtod (text : Bytes) : Option (ℚ × Bytes) :=
  (scan text).map fun r => (nearestDouble r.1, r.2)

/-- The conversion of a double to `int`, cut to its range. -/
def toInt (x : ℚ) : Int :=
  if x ≥ 2 ^ 31 - 1 then 2 ^ 31 - 1
  else if x ≤ -2 ^ 31 then -2 ^ 31
  else x.num.tdiv x.den

theorem roundEven_intCast (n : Int) : roundEven n = n := by
  simp [roundEven]

theorem quantum_intCast_nonpos {n : Int} (h : n.natAbs < 2 ^ 53) : quantum n ≤ 0 := by
  refine max_le ?_ (by decide)
  obtain rfl | hn := eq_or_ne n 0
  · simp
  · have hpos : (0 : ℚ) < |(n : ℚ)| := abs_pos.mpr (Int.cast_ne_zero.mpr hn)
    have hlt : |(n : ℚ)| < ((2 : ℕ) : ℚ) ^ (53 : Int) := by
      rw [← Int.cast_abs, Int.abs_eq_natAbs]
      exact_mod_cast h
    have hlog := (Int.lt_zpow_iff_log_lt Nat.one_lt_two hpos).mp hlt
    omega

/-- Below `2 ^ 53` every integer is a double. -/
theorem nearestDouble_intCast {n : Int} (h : n.natAbs < 2 ^ 53) : nearestDouble n = n := by
  obtain ⟨k, hk⟩ := Int.eq_ofNat_of_zero_le (Int.neg_nonneg.mpr (quantum_intCast_nonpos h))
  have hquantum : quantum n = -(k : Int) := by omega
  have hscaled : (n : ℚ) / 2 ^ (-(k : Int)) = ((n * 2 ^ k : Int) : ℚ) := by
    rw [zpow_neg, zpow_natCast, div_inv_eq_mul]
    push_cast
    rfl
  rw [nearestDouble, hquantum, hscaled, roundEven_intCast, ← hscaled]
  exact div_mul_cancel₀ _ (zpow_ne_zero _ two_ne_zero)

theorem toInt_intCast {n : Int} (hmin : -2 ^ 31 ≤ n) (hmax : n ≤ 2 ^ 31 - 1) : toInt n = n := by
  unfold toInt
  split
  · next h =>
    have h : (2 ^ 31 - 1 : Int) ≤ n := by exact_mod_cast h
    omega
  · split
    · next h =>
      have h : n ≤ (-2 ^ 31 : Int) := by exact_mod_cast h
      omega
    · rw [Rat.num_intCast, Rat.den_intCast]
      exact Int.tdiv_one n

/-! ## What is left of the text -/

theorem length_scanSign_le (text : Bytes) : (scanSign text).2.length ≤ text.length := by
  unfold scanSign
  split
  · split_ifs <;> simp
  · exact le_rfl

theorem length_scanExponent_le (text : Bytes) : (scanExponent text).2.length ≤ text.length := by
  cases text with
  | nil => exact le_rfl
  | cons c rest =>
    have hsign : (scanSign rest).2.length ≤ rest.length := length_scanSign_le rest
    have hdrop : ((scanSign rest).2.dropWhile isDigit).length ≤ (scanSign rest).2.length :=
      (List.dropWhile_sublist _).length_le
    rw [scanExponent]
    split
    · dsimp only
      split
      · exact Nat.le_refl _
      · exact hdrop.trans (hsign.trans (Nat.le_succ _))
    · exact Nat.le_refl _

/-- The fraction is taken from the text. -/
theorem length_scanFraction (text : Bytes) :
    (scanFraction text).1.length + (scanFraction text).2.length ≤ text.length := by
  cases text with
  | nil => exact le_rfl
  | cons c rest =>
    rw [scanFraction]
    split_ifs
    · rw [← List.length_append, List.takeWhile_append_dropWhile]
      exact Nat.le_succ _
    · simp

/-- A numeral has at least one character. -/
theorem length_of_scanUnsigned {text rest : Bytes} {x : ℚ} (h : scanUnsigned text = some (x, rest)) :
    rest.length < text.length := by
  have hfraction := length_scanFraction (text.dropWhile isDigit)
  have hexponent := length_scanExponent_le (scanFraction (text.dropWhile isDigit)).2
  have htext : text.length = (text.takeWhile isDigit).length + (text.dropWhile isDigit).length := by
    rw [← List.length_append, List.takeWhile_append_dropWhile]
  unfold scanUnsigned at h
  dsimp only at h
  split at h
  · cases h
  · next hne =>
    obtain ⟨-, rfl⟩ := Prod.mk.inj (Option.some.inj h)
    have hpos := List.length_pos_of_ne_nil hne
    rw [List.length_append] at hpos
    omega

theorem length_of_strtod {text rest : Bytes} {x : ℚ} (h : strtod text = some (x, rest)) :
    rest.length < text.length := by
  obtain ⟨⟨y, rest₁⟩, hscan, heq⟩ := Option.map_eq_some_iff.mp h
  obtain ⟨-, rfl⟩ := Prod.mk.inj heq
  obtain ⟨⟨z, rest₂⟩, hunsigned, heq⟩ := Option.map_eq_some_iff.mp hscan
  obtain ⟨-, rfl⟩ := Prod.mk.inj heq
  exact (length_of_scanUnsigned hunsigned).trans_le (length_scanSign_le text)

/-! ## Longer texts -/

theorem exists_scanUnsigned_iff {text : Bytes} : (∃ r, scanUnsigned text = some r) ↔
    text.takeWhile isDigit ++ (scanFraction (text.dropWhile isDigit)).1 ≠ [] := by
  unfold scanUnsigned
  dsimp only
  split
  · next hnil => exact iff_of_false (by rintro ⟨r, hr⟩; cases hr) (not_not_intro hnil)
  · next hne => exact iff_of_true ⟨_, rfl⟩ hne

/-- A numeral starts with a digit, or with a decimal point and a digit. -/
theorem exists_scanUnsigned_iff_digit {text : Bytes} : (∃ r, scanUnsigned text = some r) ↔
    ∃ d tail, isDigit d = true ∧ (text = d :: tail ∨ text = byte '.' :: d :: tail) := by
  rw [exists_scanUnsigned_iff]
  constructor
  · intro h
    cases text with
    | nil => exact absurd rfl h
    | cons c text =>
      by_cases hc : isDigit c = true
      · exact ⟨c, text, hc, .inl rfl⟩
      · rw [List.takeWhile_cons_of_neg hc, List.dropWhile_cons_of_neg hc, List.nil_append,
          scanFraction] at h
        split at h
        · next hdot =>
          subst hdot
          obtain ⟨d, tail, hcons⟩ := List.exists_cons_of_ne_nil h
          have hd : isDigit d = true := List.mem_takeWhile_imp (hcons ▸ List.mem_cons_self)
          cases text with
          | nil => cases hcons
          | cons d' text =>
            by_cases hd' : isDigit d' = true
            · exact ⟨d', text, hd', .inr rfl⟩
            · exact absurd (List.takeWhile_cons_of_neg hd') h
        · exact absurd rfl h
  · rintro ⟨d, tail, hd, rfl | rfl⟩
    · rw [List.takeWhile_cons_of_pos hd]
      exact List.cons_ne_nil _ _
    · have hdot : ¬isDigit (byte '.') = true := by decide
      rw [List.takeWhile_cons_of_neg hdot, List.dropWhile_cons_of_neg hdot, scanFraction, if_pos rfl,
        List.takeWhile_cons_of_pos hd]
      exact List.cons_ne_nil _ _

/-- A text that starts with a numeral still does if something is added to it. -/
theorem exists_strtod_append {text : Bytes} {r : ℚ × Bytes} (more : Bytes)
    (h : strtod text = some r) : ∃ r', strtod (text ++ more) = some r' := by
  obtain ⟨r₁, hscan, -⟩ := Option.map_eq_some_iff.mp h
  have hunsigned : ∃ r, scanUnsigned (scanSign text).2 = some r := by
    obtain ⟨r₂, hr₂, -⟩ := Option.map_eq_some_iff.mp hscan
    exact ⟨r₂, hr₂⟩
  have hsign : (scanSign (text ++ more)).2 = (scanSign text).2 ++ more := by
    cases text with
    | nil => exact absurd rfl (exists_scanUnsigned_iff.mp hunsigned)
    | cons c text =>
      rw [List.cons_append, scanSign, scanSign]
      split_ifs <;> rfl
  obtain ⟨d, tail, hd, htext⟩ := exists_scanUnsigned_iff_digit.mp hunsigned
  have hmore : ∃ r, scanUnsigned (scanSign (text ++ more)).2 = some r := by
    refine exists_scanUnsigned_iff_digit.mpr ⟨d, tail ++ more, hd, ?_⟩
    rw [hsign]
    obtain htext | htext := htext
    · exact .inl (by rw [htext, List.cons_append])
    · exact .inr (by rw [htext, List.cons_append, List.cons_append])
  obtain ⟨r₃, hr₃⟩ := hmore
  have hscan : scan (text ++ more) =
      some (if (scanSign (text ++ more)).1 then -r₃.1 else r₃.1, r₃.2) :=
    Option.map_eq_some_iff.mpr ⟨r₃, hr₃, rfl⟩
  rw [strtod, hscan]
  exact ⟨_, rfl⟩

/-! ## Printed numbers -/

/-- The decimal digits of a number. -/
def decimal (n : Nat) : Bytes := (Nat.toDigits 10 n).map fun c => c.toNat.toUInt8

theorem ofInt_eq (n : Int) :
    ofInt n = if n < 0 then byte '-' :: decimal n.natAbs else decimal n.natAbs := rfl

theorem decimal_ne_nil {n : Nat} : decimal n ≠ [] :=
  fun h => Nat.toDigits_ne_nil (List.map_eq_nil_iff.mp h)

theorem toNat_of_isDigit {c : Char} (h : c.isDigit = true) : 48 ≤ c.toNat ∧ c.toNat ≤ 57 := by
  simpa [Char.isDigit, UInt32.le_iff_toNat_le] using h

theorem isDigit_iff {b : UInt8} : isDigit b = true ↔ 48 ≤ b.toNat ∧ b.toNat ≤ 57 := by
  simp [isDigit, byte, UInt8.le_iff_toNat_le]

theorem isDigit_of_mem_decimal {n : Nat} {b : UInt8} (h : b ∈ decimal n) : isDigit b = true := by
  obtain ⟨c, hc, rfl⟩ := List.mem_map.mp h
  have hdigit := toNat_of_isDigit (Nat.isDigit_of_mem_toDigits (by decide) (by decide) hc)
  refine isDigit_iff.mpr ?_
  rw [Nat.toUInt8_eq, UInt8.toNat_ofNat']
  omega

theorem foldl_digits {l : List Char} (h : ∀ c ∈ l, c.isDigit = true) (acc : Nat) :
    (l.map fun c => c.toNat.toUInt8).foldl (fun n b => 10 * n + (b - byte '0').toNat) acc =
      Nat.ofDigitChars 10 l acc := by
  induction l generalizing acc with
  | nil => rfl
  | cons c l ih =>
    obtain ⟨hc, hl⟩ := List.forall_mem_cons.mp h
    obtain ⟨hlow, hhigh⟩ := toNat_of_isDigit hc
    have hbyte : (c.toNat.toUInt8 - byte '0').toNat = c.toNat - '0'.toNat := by
      rw [UInt8.toNat_sub_of_le]
      · show c.toNat.toUInt8.toNat - 48 = c.toNat - 48
        rw [Nat.toUInt8_eq, UInt8.toNat_ofNat']
        omega
      · refine UInt8.le_iff_toNat_le.mpr ?_
        show 48 ≤ c.toNat.toUInt8.toNat
        rw [Nat.toUInt8_eq, UInt8.toNat_ofNat']
        omega
    rw [List.map_cons, List.foldl_cons, hbyte, ih hl]
    rfl

/-- Printed digits are read back. -/
theorem readDigits_decimal {n : Nat} : readDigits (decimal n) = n := by
  have hall : (decimal n).takeWhile isDigit = decimal n :=
    List.takeWhile_eq_self_iff.mpr fun b hb => isDigit_of_mem_decimal hb
  rw [readDigits, hall, decimal,
    foldl_digits fun c hc => Nat.isDigit_of_mem_toDigits (by decide) (by decide) hc]
  exact Nat.ofDigitChars_ten_toDigits

/-- Only zero is printed with a leading zero. -/
theorem head?_decimal {n : Nat} (h : (decimal n).head? = some (byte '0')) : n = 0 := by
  induction n using Nat.strongRecOn with
  | ind n ih =>
    by_cases hn : n < 10
    · have hfirst : ∀ m < 10,
          ([Nat.digitChar m].map fun c => c.toNat.toUInt8).head? = some (byte '0') → m = 0 := by
        decide
      rw [decimal, Nat.toDigits_of_lt_base hn] at h
      exact hfirst n hn h
    · rw [decimal, Nat.toDigits_of_base_le (by decide) (not_lt.mp hn), List.map_append,
        ← decimal, List.head?_append_of_ne_nil _ decimal_ne_nil] at h
      have hzero := ih (n / 10) (by omega) h
      omega

end Numeral
