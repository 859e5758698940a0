/-!
# ASCII letter case

Names, operator words and keywords are compared without regard to the case of the ASCII letters.
Every other character stands for itself, so `É` and `é` stay different.
-/

namespace ShellQuery.Text

/-- Lower-cases the ASCII letters and leaves every other character as it is. -/
def lower (s : String) : String :=
  String.ofList (s.toList.map Char.toLower)

/-- Upper-cases the ASCII letters and leaves every other character as it is. -/
def upper (s : String) : String :=
  String.ofList (s.toList.map Char.toUpper)

/-- Equality of two texts up to the case of their ASCII letters. -/
def sameIgnoringCase (s t : String) : Bool :=
  lower s == lower t

@[simp]
theorem toList_lower (s : String) : (lower s).toList = s.toList.map Char.toLower := by
  simp [lower]

@[simp]
theorem toList_upper (s : String) : (upper s).toList = s.toList.map Char.toUpper := by
  simp [upper]

/-! ### Letters and digits by their codes

The two ranges of letters lie 32 apart, so each fact about case is one about numbers. -/

theorem isUpper_iff {c : Char} : c.isUpper = true ↔ 65 ≤ c.toNat ∧ c.toNat ≤ 90 := by
  unfold Char.isUpper
  simp only [decide_eq_true_eq, ge_iff_le, UInt32.le_iff_toNat_le]
  rfl

theorem isLower_iff {c : Char} : c.isLower = true ↔ 97 ≤ c.toNat ∧ c.toNat ≤ 122 := by
  unfold Char.isLower
  simp only [Bool.and_eq_true, decide_eq_true_eq, ge_iff_le, UInt32.le_iff_toNat_le]
  rfl

theorem isDigit_iff {c : Char} : c.isDigit = true ↔ 48 ≤ c.toNat ∧ c.toNat ≤ 57 :=
  Char.isDigit_iff_toNat

theorem isAlpha_iff {c : Char} :
    c.isAlpha = true ↔ 65 ≤ c.toNat ∧ c.toNat ≤ 90 ∨ 97 ≤ c.toNat ∧ c.toNat ≤ 122 := by
  unfold Char.isAlpha
  rw [Bool.or_eq_true, isUpper_iff, isLower_iff]

theorem toNat_toLower_of_isUpper {c : Char} (h : c.isUpper = true) :
    c.toLower.toNat = c.toNat + 32 := by
  unfold Char.isUpper at h
  rw [decide_eq_true_eq] at h
  unfold Char.toLower
  rw [dif_pos h]
  grind [UInt32.toNat_add, Char.toNat]

theorem toNat_toUpper_of_isLower {c : Char} (h : c.isLower = true) :
    c.toUpper.toNat + 32 = c.toNat := by
  unfold Char.isLower at h
  rw [Bool.and_eq_true, decide_eq_true_eq, decide_eq_true_eq] at h
  unfold Char.toUpper
  rw [dif_pos h]
  grind [UInt32.toNat_add, Char.toNat]

theorem toLower_of_not_isUpper {c : Char} (h : ¬c.isUpper = true) : c.toLower = c := by
  unfold Char.isUpper at h
  unfold Char.toLower
  rw [dif_neg (by simpa using h)]

theorem toUpper_of_not_isLower {c : Char} (h : ¬c.isLower = true) : c.toUpper = c := by
  unfold Char.isLower at h
  unfold Char.toUpper
  rw [dif_neg (by simpa using h)]

/-- A letter stays one in lower case, and nothing else becomes one. -/
theorem isAlpha_toLower (c : Char) : c.toLower.isAlpha = c.isAlpha := by
  by_cases hc : c.isUpper
  · have hcode := toNat_toLower_of_isUpper hc
    rw [isUpper_iff] at hc
    rw [Bool.eq_iff_iff, isAlpha_iff, isAlpha_iff]
    omega
  · rw [toLower_of_not_isUpper hc]

theorem isAlpha_of_isUpper_toUpper {c : Char} (h : c.toUpper.isUpper = true) :
    c.isAlpha = true := by
  unfold Char.isAlpha
  by_cases hc : c.isLower
  · rw [hc, Bool.or_true]
  · rw [toUpper_of_not_isLower hc] at h
    rw [h, Bool.true_or]

theorem toLower_toLower (c : Char) : c.toLower.toLower = c.toLower := by
  by_cases hc : c.isUpper
  · have hcode := toNat_toLower_of_isUpper hc
    rw [isUpper_iff] at hc
    exact toLower_of_not_isUpper (by rw [isUpper_iff]; omega)
  · rw [toLower_of_not_isUpper hc, toLower_of_not_isUpper hc]

theorem toUpper_toLower (c : Char) : c.toLower.toUpper = c.toUpper := by
  by_cases hc : c.isUpper
  · have hcode := toNat_toLower_of_isUpper hc
    rw [isUpper_iff] at hc
    -- a capital goes down by 32 and up again, and is no small letter itself
    have hback := toNat_toUpper_of_isLower (c := c.toLower) (isLower_iff.2 (by omega))
    rw [toUpper_of_not_isLower (c := c) (by rw [isLower_iff]; omega), ← Char.toNat_inj]
    omega
  · rw [toLower_of_not_isUpper hc]

/-! ### Texts -/

@[simp]
theorem lower_lower (s : String) : lower (lower s) = lower s := by
  rw [lower, toList_lower, List.map_map, lower]
  congr 2
  exact funext toLower_toLower

@[simp]
theorem sameIgnoringCase_self (s : String) : sameIgnoringCase s s = true := by
  simp [sameIgnoringCase]

end ShellQuery.Text
