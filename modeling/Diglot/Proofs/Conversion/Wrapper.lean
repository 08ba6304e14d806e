import Diglot.Conversion
import Diglot.Proofs.Core.Root

/-!
# Patterns that need no wrapper

Options can ask for conversions that need no plan at the time of matching. This is looked at when a
leading anchor is taken off, and again when the captures of the host text are known. Between the two
it changes nothing, so exactly those conversions are left that have no plan.
-/

namespace Diglot

namespace Settings

/-- The same settings with the wrapper avoided or not. -/
def avoiding (s : Settings) (avoidEmulation : Bool) : Settings := { s with avoidEmulation }

variable {s : Settings}

theorem lower_avoiding_iff {p : Source.Pattern} {q : Core.Pattern} :
    Core.Pattern.lower (s.avoiding true).lowering p = .ok q ↔
      Core.Pattern.lower (s.avoiding false).lowering p = .ok q ∧ q.strategy = none := by
  have hroot : Core.lowerRoot (.of (s.avoiding true).lowering p) p
      = Core.lowerRoot (.of (s.avoiding false).lowering p) p :=
    Core.lowerRoot_avoiding (.of (s.avoiding false).lowering p) true p
  rw [Core.lower_eq_ok_iff, Core.lower_eq_ok_iff, hroot]
  constructor
  · rintro ⟨havoid, hrest⟩
    exact ⟨⟨fun h => absurd h Bool.false_ne_true, hrest⟩, havoid rfl⟩
  · rintro ⟨⟨-, hrest⟩, hstrategy⟩
    exact ⟨fun _ => hstrategy, hrest⟩

/-- There is no plan if nothing is hidden, transferred, chosen or put off. -/
theorem emulation?_eq_none_iff (hlazy : s.lazyCompileLength = none) (strategy : Option Strategy)
    (p : Reduction.Draft) :
    s.emulation? strategy p = none ↔ p.layout.isEmpty = true ∧ strategy = none := by
  have hnow : s.compilesLazily p.text.length = false := by
    rw [compilesLazily, hlazy]
    rfl
  unfold emulation?
  rw [hnow]
  simp

theorem finish_avoiding_iff (hlazy : s.lazyCompileLength = none) {w : Emitted.Written}
    {c : Conversion} :
    (s.avoiding true).finish none w = .ok c ↔
      (s.avoiding false).finish none w = .ok c ∧ c.emulation = none := by
  have hplan : ∀ (avoidEmulation : Bool) (p : Reduction.Draft),
      (s.avoiding avoidEmulation).emulation? none p = none ↔ p.layout.isEmpty = true := by
    intro avoidEmulation p
    have hlazy' : (s.avoiding avoidEmulation).lazyCompileLength = none := hlazy
    rw [emulation?_eq_none_iff hlazy']
    exact and_iff_left rfl
  unfold finish
  rw [bind_eq_ok_iff, bind_eq_ok_iff]
  constructor
  · rintro ⟨p, hp, hc⟩
    by_cases hempty : p.layout.isEmpty = true
    · rw [if_neg (by simp [hempty])] at hc
      cases hc
      exact ⟨⟨p, hp, rfl⟩, (hplan true p).2 hempty⟩
    · rw [if_pos (by simp [hempty, avoiding])] at hc
      cases hc
  · rintro ⟨⟨p, hp, hc⟩, hnone⟩
    cases hc
    have hempty := (hplan false p).1 hnone
    refine ⟨p, hp, ?_⟩
    rw [if_neg (by simp [hempty])]
    rfl

/-- Every stage is the same where the wrapper is avoided, if the result needs none. -/
theorem run_avoiding_iff (hlazy : s.lazyCompileLength = none) {pattern : String} {st : Stages} :
    (s.avoiding true).run pattern = .ok st ↔
      (s.avoiding false).run pattern = .ok st ∧ st.result.emulation = none := by
  unfold run
  simp only [bind_eq_ok_iff]
  constructor
  · rintro ⟨source, hread, core, hlower, written, hwrite, result, hfinish, hst⟩
    cases hst
    obtain ⟨hlower, hstrategy⟩ := lower_avoiding_iff.1 hlower
    rw [hstrategy] at hfinish
    obtain ⟨hfinish, hnone⟩ := (finish_avoiding_iff hlazy).1 hfinish
    rw [← hstrategy] at hfinish
    exact ⟨⟨source, hread, core, hlower, written, hwrite, result, hfinish, rfl⟩, hnone⟩
  · rintro ⟨⟨source, hread, core, hlower, written, hwrite, result, hfinish, hst⟩, hnone⟩
    cases hst
    -- a leading anchor would leave a plan
    have hstrategy : core.strategy = none := by
      obtain ⟨p, -, hc⟩ := exists_of_bind_eq_ok hfinish
      cases hc
      have hlazy' : (s.avoiding false).lazyCompileLength = none := hlazy
      exact ((emulation?_eq_none_iff hlazy' _ p).1 hnone).2
    rw [hstrategy] at hfinish
    replace hfinish := (finish_avoiding_iff hlazy).2 ⟨hfinish, hnone⟩
    rw [← hstrategy] at hfinish
    exact ⟨source, hread, core, lower_avoiding_iff.2 ⟨hlower, hstrategy⟩, written, hwrite, result,
      hfinish, rfl⟩

end Settings

/-- Without a length from which on compilation is put off, it is no fault to avoid the wrapper. -/
theorem normalize_avoiding {o : Options} (hlazy : o.lazyCompileLength = none)
    (avoidEmulation : Bool) : { o with avoidEmulation }.normalize
      = (·.avoiding avoidEmulation) <$> o.normalize := by
  unfold Options.normalize
  simp only [hlazy, Option.isSome_none, Bool.and_false, Bool.false_eq_true, if_false]
  split
  · rfl
  · cases Flags.ofString o.flags with
    | error e => rfl
    | ok flags => rfl

theorem lazyCompileLength_of_normalize {o : Options} {s : Settings} (h : o.normalize = .ok s) :
    s.lazyCompileLength = o.lazyCompileLength := by
  unfold Options.normalize at h
  dsimp only at h
  split at h
  · cases h
  split at h
  · cases h
  obtain ⟨flags, -, h⟩ := exists_of_bind_eq_ok h
  cases h
  rfl

/-- **Avoiding the wrapper is a filter.** Where compilation is never put off, the conversions that
avoid the wrapper are those that have no plan for the time of matching. -/
theorem conversion_avoiding_iff {o : Options} (hlazy : o.lazyCompileLength = none)
    (pattern : String) (c : Conversion) :
    Conversion.ofSource { o with avoidEmulation := true } pattern = .ok c ↔
      Conversion.ofSource { o with avoidEmulation := false } pattern = .ok c ∧
        c.emulation = none := by
  unfold Conversion.ofSource Stages.ofSource
  rw [normalize_avoiding hlazy true, normalize_avoiding hlazy false]
  cases hs : o.normalize with
  | error e =>
    constructor
    · intro h
      cases h
    · rintro ⟨h, -⟩
      cases h
  | ok s =>
    show (do return (← (s.avoiding true).run pattern).result) = .ok c ↔
      (do return (← (s.avoiding false).run pattern).result) = .ok c ∧ c.emulation = none
    replace hlazy : s.lazyCompileLength = none := (lazyCompileLength_of_normalize hs).trans hlazy
    rw [bind_eq_ok_iff, bind_eq_ok_iff]
    constructor
    · rintro ⟨st, hrun, hc⟩
      cases hc
      obtain ⟨hrun, hnone⟩ := (Settings.run_avoiding_iff hlazy).1 hrun
      exact ⟨⟨st, hrun, rfl⟩, hnone⟩
    · rintro ⟨⟨st, hrun, hc⟩, hnone⟩
      cases hc
      exact ⟨st, (Settings.run_avoiding_iff hlazy).2 ⟨hrun, hnone⟩, rfl⟩

/-- Case variants and a named reference are written without a plan. A subroutine call leaves a hidden
capture, and so it is refused. -/
theorem conversion_avoiding_iff_example :
    (∃ c, Conversion.ofSource { avoidEmulation := true, target := some .es2018 }
      "(?i:k)b|(?<n>\\h)\\k<n>" = .ok c ∧ c.emulation = none) ∧
    ∀ c, Conversion.ofSource { avoidEmulation := true } "(a|b)\\g<1>" ≠ .ok c := by
  constructor
  · obtain ⟨c, hc, hnone⟩ : ∃ c, Conversion.ofSource { target := some .es2018 }
        "(?i:k)b|(?<n>\\h)\\k<n>" = .ok c ∧ c.emulation = none := by
      decide +kernel
    exact ⟨c, (conversion_avoiding_iff (o := { target := some .es2018 }) rfl _ c).2 ⟨hc, hnone⟩,
      hnone⟩
  · intro c hc
    obtain ⟨c', hc', hsome⟩ : ∃ c, Conversion.ofSource {} "(a|b)\\g<1>" = .ok c ∧
        c.emulation ≠ none := by
      decide +kernel
    obtain ⟨hc, hnone⟩ := (conversion_avoiding_iff (o := {}) rfl _ c).1 hc
    cases hc.symm.trans hc'
    exact hsome hnone

end Diglot
