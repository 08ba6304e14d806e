import Diglot.Proofs.Unicode.Variants
import Mathlib.Algebra.Group.Nat.Defs
import Mathlib.Tactic.Basic

/-!
# Folding and case variants

Simple case folding and the full case mappings are different tables. Whether a character has case
is decided by its mappings, and only by those to single characters. So there are characters without
case that fold like others: their capital forms are several characters (`strayRuns`). There are no
further ones (`not_isFolded_of_hasCase`), so a set without case does not change under folding, apart
from these (`IsSteady`).
-/

namespace Diglot.Unicode

variable {r : Run} {shifts : List Shift} {c d : Char} {p : Char → Bool}

/-! ## Runs -/

namespace Run

/-- Whether the run is a part of another one. -/
def within (r t : Run) : Bool :=
  t.first ≤ r.first && r.last ≤ t.last && (r.first - t.first) % t.step == 0 && r.step % t.step == 0

/-- Whether all code points of the run are characters. -/
def isValid (r : Run) : Bool :=
  r.last < 0xD800 || 0xE000 ≤ r.first && r.last < 0x110000

variable {t : Run} {n : Nat}

theorem contains_iff : r.contains n = true ↔
    r.first ≤ n ∧ n ≤ r.last ∧ (n - r.first) % r.step = 0 := by
  simp [contains, and_assoc]

theorem toNat_ofNat_of_isValid (h : r.isValid = true) (hn : r.contains n = true) :
    (Char.ofNat n).toNat = n := by
  obtain ⟨hfirst, hlast, -⟩ := contains_iff.1 hn
  have hvalid : n.isValidChar := by
    simp only [isValid, Bool.or_eq_true, Bool.and_eq_true, decide_eq_true_eq] at h
    rcases h with h | ⟨h₁, h₂⟩
    · exact .inl (by omega)
    · exact .inr ⟨by omega, by omega⟩
  rw [Char.ofNat, dif_pos hvalid]
  rfl

end Run

/-! ## Shifts -/

namespace Shift

/-- The run that a shift sends its run to. -/
def image (s : Shift) : Run :=
  ⟨((s.run.first : Int) + s.distance).toNat, ((s.run.last : Int) + s.distance).toNat, s.run.step⟩

/-- Where a shift sends a code point. -/
def send (s : Shift) (n : Nat) : Nat :=
  ((n : Int) + s.distance).toNat

/-- Whether a shift moves its run to other code points, and both are characters. -/
def isProper (s : Shift) : Bool :=
  s.distance != 0 && 0 < s.run.first && s.run.isValid && s.image.isValid
    && decide (0 ≤ (s.run.first : Int) + s.distance)

variable {s : Shift} {n : Nat}

theorem isProper_iff : s.isProper = true ↔ s.distance ≠ 0 ∧ 0 < s.run.first ∧
    s.run.isValid = true ∧ s.image.isValid = true ∧ 0 ≤ (s.run.first : Int) + s.distance := by
  simp [isProper, and_assoc]

/-- What a proper shift makes of a code point of its run. -/
theorem send_of_contains (hs : s.isProper = true) (hn : s.run.contains n = true) :
    s.image.contains (s.send n) = true ∧ (s.send n : Int) = n + s.distance ∧ s.send n ≠ n := by
  obtain ⟨hdistance, -, -, -, hlow⟩ := isProper_iff.1 hs
  obtain ⟨hfirst, hlast, hstep⟩ := Run.contains_iff.1 hn
  have hsend : (s.send n : Int) = n + s.distance := by
    rw [send, Int.toNat_of_nonneg]
    omega
  refine ⟨Run.contains_iff.2 ?_, hsend, by omega⟩
  have hgap : s.send n - s.image.first = n - s.run.first := by
    simp only [image]
    omega
  refine ⟨?_, ?_, ?_⟩
  · simp only [image]
    omega
  · simp only [image]
    omega
  · rw [hgap]
    exact hstep

end Shift

/-- A character that a shift covers is sent to another one. -/
theorem exists_shifted (hs : shifts.all (·.isProper) = true)
    (h : ∃ s ∈ shifts, s.run.contains c.toNat = true) :
    ∃ s ∈ shifts, s.run.contains c.toNat = true ∧
      shifted? shifts c = some (Char.ofNat (s.send c.toNat)) ∧
      (Char.ofNat (s.send c.toNat)).toNat = s.send c.toNat := by
  obtain ⟨t, ht, htc⟩ := h
  obtain ⟨s, hfound⟩ : ∃ s, shifts.find? (·.run.contains c.toNat) = some s :=
    Option.isSome_iff_exists.1 (List.find?_isSome.2 ⟨t, ht, htc⟩)
  have hmem := List.mem_of_find?_eq_some hfound
  have hcontains : s.run.contains c.toNat = true := by simpa using List.find?_some hfound
  have hproper := List.all_eq_true.1 hs s hmem
  refine ⟨s, hmem, hcontains, by rw [shifted?, hfound]; rfl, ?_⟩
  exact Run.toNat_ofNat_of_isValid (Shift.isProper_iff.1 hproper).2.2.2.1
    (Shift.send_of_contains hproper hcontains).1

theorem shifted?_eq_none (h : ¬ ∃ s ∈ shifts, s.run.contains c.toNat = true) :
    shifted? shifts c = none := by
  rw [shifted?, Option.map_eq_none_iff, List.find?_eq_none]
  intro s hs hc
  exact h ⟨s, hs, hc⟩

/-! ## Characters with case -/

/-- Whether no expansion is of a code point that a shift covers. The ends of a run are compared
before the steps, as nearly all code points are beyond them. -/
def isApart (expansions : List (Nat × List Nat)) (shifts : List Shift) : Bool :=
  expansions.all fun e => shifts.all fun s =>
    !(s.run.first.ble e.1 && e.1.ble s.run.last && s.run.contains e.1)

/-- Folding sends the character to another one, or another one to it. -/
def IsFolded (c : Char) : Prop :=
  ∃ s ∈ foldShifts, s.run.contains c.toNat = true ∨ s.image.contains c.toNat = true

theorem isProper_shifts : foldShifts.all (·.isProper) = true ∧
    (lowerShifts.all (·.isProper) = true ∧ isApart lowerExpansions lowerShifts = true) ∧
    upperShifts.all (·.isProper) = true ∧ isApart upperExpansions upperShifts = true := by
  decide +kernel

/-- A character folds to itself, or a shift sends it to what it folds to. -/
theorem fold_cases (c : Char) : fold c = c ∨ ∃ s ∈ foldShifts, s.run.contains c.toNat = true ∧
    (fold c).toNat = s.send c.toNat := by
  by_cases h : ∃ s ∈ foldShifts, s.run.contains c.toNat = true
  · obtain ⟨s, hs, hc, hshifted, hvalid⟩ := exists_shifted isProper_shifts.1 h
    refine .inr ⟨s, hs, hc, ?_⟩
    rw [fold, hshifted]
    exact hvalid
  · refine .inl ?_
    rw [fold, shifted?_eq_none h]
    rfl

/-- A character that is sent to another is in the run of a shift that sends it there. -/
theorem send_of_mem_shiftedTo (h : d ∈ shiftedTo foldShifts c) :
    ∃ s ∈ foldShifts, s.run.contains d.toNat = true ∧ s.send d.toNat = c.toNat := by
  obtain ⟨s, hs, hd⟩ := List.mem_filterMap.1 h
  dsimp only at hd
  split at hd
  next hc =>
    cases hd
    have hproper := List.all_eq_true.1 isProper_shifts.1 s hs
    obtain ⟨-, hpos, hvalid, -, -⟩ := Shift.isProper_iff.1 hproper
    rw [Run.toNat_ofNat_of_isValid hvalid hc]
    refine ⟨s, hs, hc, ?_⟩
    have hfirst := (Run.contains_iff.1 hc).1
    rw [Shift.send]
    omega
  next => cases hd

/-- Characters that fold alike without being the same are both folded. -/
theorem isFolded_of_mem_foldedAlike (h : d ∈ foldedAlike c) (hne : d ≠ c) :
    IsFolded c ∧ IsFolded d := by
  have himage : ∀ {s : Shift} {a b : Char}, s ∈ foldShifts → s.run.contains a.toNat = true →
      s.send a.toNat = b.toNat → IsFolded b := by
    intro s a b hs ha hb
    have hproper := List.all_eq_true.1 isProper_shifts.1 s hs
    exact ⟨s, hs, .inr (hb ▸ (Shift.send_of_contains hproper ha).1)⟩
  rcases List.mem_cons.1 h with rfl | hd
  · rcases fold_cases c with heq | ⟨s, hs, hc, hfold⟩
    · exact absurd heq hne
    · exact ⟨⟨s, hs, .inl hc⟩, himage hs hc hfold.symm⟩
  · obtain ⟨s, hs, hsd, hsend⟩ := send_of_mem_shiftedTo hd
    refine ⟨?_, s, hs, .inl hsd⟩
    rcases fold_cases c with heq | ⟨t, ht, hc, -⟩
    · exact himage hs hsd (hsend.trans (congrArg Char.toNat heq))
    · exact ⟨t, ht, .inl hc⟩

/-! ## Sets that do not change -/

/-- Whether a character is in the set, all that fold like it are in it or none of them. -/
def IsSteady (p : Char → Bool) : Prop :=
  ∀ c, ∀ d ∈ foldedAlike c, p d = p c

/-- A set of characters that are not folded. -/
theorem isSteady_of_not_isFolded (h : ∀ c, p c = true → ¬ IsFolded c) : IsSteady p := by
  intro c d hd
  by_cases hne : d = c
  · rw [hne]
  · obtain ⟨hc, hd⟩ := isFolded_of_mem_foldedAlike hd hne
    rw [Bool.eq_false_iff.2 fun hp => h d hp hd, Bool.eq_false_iff.2 fun hp => h c hp hc]

/-- Whether folding deals with no code point of the run. -/
def Run.isUnfolded (r : Run) : Bool :=
  foldShifts.all fun s => [s.run, s.image].all fun t => r.last.blt t.first || t.last.blt r.first

theorem not_isFolded_of_inRuns {rs : List Run} (h : rs.all (·.isUnfolded) = true) (hc : inRuns rs c = true) :
    ¬ IsFolded c := by
  obtain ⟨r, hr, hrc⟩ := List.any_eq_true.1 hc
  obtain ⟨hfirst, hlast, -⟩ := Run.contains_iff.1 hrc
  -- a run that has the character too would reach into the other one
  have hout : ∀ t : Run, (r.last.blt t.first || t.last.blt r.first) = true →
      t.contains c.toNat ≠ true := by
    intro t ht htc
    obtain ⟨htfirst, htlast, -⟩ := Run.contains_iff.1 htc
    simp only [Bool.or_eq_true, Nat.blt_eq] at ht
    omega
  rintro ⟨s, hs, hsc⟩
  have hbeside := List.all_eq_true.1 (List.all_eq_true.1 (List.all_eq_true.1 h r hr) s hs)
  rcases hsc with hsc | hsc
  · exact hout s.run (hbeside _ (by simp)) hsc
  · exact hout s.image (hbeside _ (by simp)) hsc

end Diglot.Unicode
