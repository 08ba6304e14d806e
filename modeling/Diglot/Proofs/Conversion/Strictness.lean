import Diglot.Conversion
import Diglot.Proofs.Core.RecursionSites
import Diglot.Proofs.Emitted.Leniency

/-!
# Strict accuracy only refuses

Strict accuracy is consulted while a pattern is lowered and while it is written, and some of these
places also choose what is written. Still, a conversion that succeeds under strict accuracy is the
conversion that results without it.
-/

namespace Diglot

open Emitted

/-- Options that differ in strictness are checked alike. -/
theorem normalize_strict (o : Options) (strict : Bool) : { o with strict }.normalize
    = (fun s : Settings => { s with strict }) <$> o.normalize := by
  unfold Options.normalize
  dsimp only
  split
  · rfl
  split
  · rfl
  cases Flags.ofString o.flags with
  | error e => rfl
  | ok flags => rfl

namespace Settings

variable (s : Settings)

/-- The same settings without strict accuracy. -/
def lenient : Settings := { s with strict := false }

theorem relaxes_lenient (mode : CaseMode) : s.writing.Relaxes True mode s.lenient.writing where
  recursionLimit := rfl
  strict h := absurd h Bool.false_ne_true
  flagGroups _ := id
  sameGroups _ := .refl _
  unicodeSets := .refl _
  verbose := .refl _

/-- Every stage is the same without strict accuracy. -/
theorem simulates_run (pattern : String) : Simulates Eq (s.run pattern) (s.lenient.run pattern) := by
  refine (Refines.refl (Source.Pattern.read s.reading pattern.toList)).bind ?_
  rintro source _ rfl
  refine (Core.ends_lower s.lowering source).simulates.bind ?_
  rintro core _ ⟨rfl, -⟩
  refine (refines_writePattern (s.relaxes_lenient _)).simulates.bind fun written written' h => ?_
  obtain rfl := h trivial
  have hfinish : s.lenient.finish core.strategy written = s.finish core.strategy written := rfl
  rw [hfinish]
  exact .refl _

end Settings

/-- **Strict accuracy only refuses.** A pattern that is converted under strict accuracy is converted
without it too, to the same text with the same flags and the same plan for matching it. -/
theorem conversion_of_strict {o : Options} {pattern : String} {c : Conversion}
    (h : Conversion.ofSource { o with strict := true } pattern = .ok c) :
    Conversion.ofSource { o with strict := false } pattern = .ok c := by
  have hall : Simulates Eq (Stages.ofSource { o with strict := true } pattern)
      (Stages.ofSource { o with strict := false } pattern) := by
    unfold Stages.ofSource
    rw [normalize_strict o true, normalize_strict o false]
    cases o.normalize with
    | error e => exact .error trivial _
    | ok s => exact Settings.simulates_run { s with strict := true } pattern
  refine Refines.eq_ok (hall.bind ?_) h
  rintro st _ rfl
  exact .refl _

/-- Case variants are written out, and a possessive quantifier, a subroutine call and an atomic group
are reduced. -/
theorem conversion_of_strict_example : ∃ c,
    Conversion.ofSource { strict := true, target := some .es2018 } "(?i:k)(b++)\\g<1>(?>é|\\h)"
      = .ok c ∧
    Conversion.ofSource { strict := false, target := some .es2018 } "(?i:k)(b++)\\g<1>(?>é|\\h)"
      = .ok c := by
  obtain ⟨c, hc⟩ : ∃ c, Conversion.ofSource { strict := true, target := some .es2018 }
      "(?i:k)(b++)\\g<1>(?>é|\\h)" = .ok c := by
    decide +kernel
  exact ⟨c, hc, conversion_of_strict (o := { target := some .es2018 }) hc⟩

end Diglot
