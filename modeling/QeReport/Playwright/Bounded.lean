import QeReport.Playwright.Mapping

/-! # Bounded texts

`bounded` cuts a text that is longer than its limit and says so in a marker of its own length.
What it gives is within the limit when the marker fits, and is then not cut again. -/

namespace QeReport.Playwright

theorem length_truncated (n : ℕ) : (truncated n).length = (natText n).length + 24 := by
  have hbefore : (txt " [truncated ").length = 12 := by decide
  have hafter : (txt " characters]").length = 12 := by decide
  rw [truncated, List.length_append, List.length_append, hbefore, hafter]
  omega

/-- The length of a string stays below `2 ^ 53`, so that its marker is short. -/
theorem length_truncated_le {n : ℕ} (h : n < 2 ^ 53) : (truncated n).length ≤ 40 := by
  have hdigits := length_natText_le (n := n) (k := 16) (by decide) (by omega)
  rw [length_truncated]
  omega

theorem bounded_of_le {text : Text} {max : ℕ} (h : text.length ≤ max) : bounded text max = text :=
  if_pos h

/-- A cut text is the kept units and the marker. -/
theorem bounded_of_lt {text : Text} {max : ℕ} (h : max < text.length) :
    bounded text max = text.take (max - (truncated text.length).length) ++
      truncated (text.length - (max - (truncated text.length).length)) :=
  if_neg (Nat.not_le_of_lt h)

/-- What is kept and the marker fit the limit when the marker of the whole length does. -/
theorem length_bounded_le {text : Text} {max : ℕ} (h : (truncated text.length).length ≤ max) :
    (bounded text max).length ≤ max := by
  by_cases hle : text.length ≤ max
  · rwa [bounded_of_le hle]
  · rw [bounded_of_lt (by omega), List.length_append, List.length_take]
    have hmarker : (truncated (text.length - (max - (truncated text.length).length))).length ≤
        (truncated text.length).length := by
      rw [length_truncated (text.length - _), length_truncated text.length]
      exact Nat.add_le_add_right (length_natText_mono (Nat.sub_le _ _)) 24
    omega

/-- A bounded text is not cut again. -/
theorem bounded_bounded {text : Text} {max : ℕ} (h : (truncated text.length).length ≤ max) :
    bounded (bounded text max) max = bounded text max :=
  bounded_of_le (length_bounded_le h)

end QeReport.Playwright
