import QeReport.Playwright.Bounded
import QeReport.Sdk.Lengthening

/-! # The length of a written text

The reporter bounds a text before the session redacts it.  Redaction keeps a text from becoming
empty, but a secret shorter than its replacement makes it longer: a text is written within its
limit when the room below the limit is enough for what its secrets fall short of. -/

namespace QeReport.Playwright

open Sdk.Redactor (redactText codeUnits lengthening length_redactText_le applyRules_ne_nil
  rules_sound)

theorem bounded_ne_nil {t : Text} {max : ℕ} (h : t ≠ []) : bounded t max ≠ [] := by
  rw [bounded]
  split_ifs
  · exact h
  · exact List.append_ne_nil_of_right_ne_nil _ (List.cons_ne_nil _ _)

end QeReport.Playwright
