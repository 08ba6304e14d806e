import Diglot.Host.CharSet
import Diglot.Proofs.Unicode.Folding

/-!
# Sets that do not mind case

A set that is put together from parts that folding keeps accepts the same characters whether case is
ignored or not (`CharSet.accepts_of_steady`). The digits and the blanks are such parts. The word
characters are not: two of them fold like characters beyond ASCII.
-/

namespace Diglot.Host

open Unicode

/-! ## Parts -/

/-- The runs of the blanks. -/
def spaceRuns : List Run :=
  [⟨0x9, 0xD, 1⟩, ⟨0x2028, 0x2029, 1⟩, ⟨0xFEFF, 0xFEFF, 1⟩] ++ spaceSeparatorRuns

theorem isUnfolded_runs : [(⟨48, 57, 1⟩ : Run)].all (·.isUnfolded) = true ∧
    spaceRuns.all (·.isUnfolded) = true := by
  decide +kernel

theorem isSteady_digit : IsSteady fun c => '0' ≤ c && c ≤ '9' := by
  refine isSteady_of_not_isFolded fun c hc => not_isFolded_of_inRuns isUnfolded_runs.1 ?_
  simp only [Bool.and_eq_true, decide_eq_true_eq, Char.le_def, UInt32.le_iff_toNat_le] at hc
  have hbounds : 48 ≤ c.toNat ∧ c.toNat ≤ 57 := hc
  simp [inRuns, Run.contains, hbounds, Nat.mod_one]

theorem inRuns_spaceRuns {c : Char} (h : isSpace c = true) : inRuns spaceRuns c = true := by
  have hlisted : ['\n', '\r', '\u2028', '\u2029', '\t', '\x0b', '\x0c', '\ufeff'].all
      (inRuns spaceRuns) = true := by
    decide
  rw [isSpace, Bool.or_eq_true] at h
  rcases h with h | h
  · refine List.all_eq_true.1 hlisted c ?_
    simpa [isLineEnd, or_assoc] using h
  · rw [inRuns, spaceRuns, List.any_append, Bool.or_eq_true]
    exact .inr h

theorem isSteady_space : IsSteady isSpace :=
  isSteady_of_not_isFolded fun _ hc =>
    not_isFolded_of_inRuns isUnfolded_runs.2 (inRuns_spaceRuns hc)

/-! ## Sets -/

namespace CharSet

/-- Folding keeps all the parts that the set is put together from. -/
def Steady : CharSet → Prop
  | empty | digit | space => True
  | span low high => IsSteady fun c => low ≤ c.toNat && c.toNat ≤ high
  | word => False
  | property p => IsSteady p.has
  | texts ts => IsSteady fun c => ts.contains [c.toNat]
  | union a b | inter a b | diff a b => a.Steady ∧ b.Steady
  | complement a => a.Steady

variable {s : CharSet}

/-- What the members of a steady set are does not depend on how its parts are asked, as long as a
part that folding keeps gets a straight answer. -/
theorem has_of_steady {ask : (Char → Bool) → Char → Bool} (hask : ∀ p, IsSteady p → ask p = p)
    (hs : s.Steady) (isWord : Char → Bool) (c : Char) :
    s.has ask isWord c = s.has id isAsciiWord c := by
  induction s with
  | empty => rfl
  | span low high => exact congrFun (hask _ hs) c
  | digit => exact congrFun (hask _ isSteady_digit) c
  | space => exact congrFun (hask _ isSteady_space) c
  | word => exact hs.elim
  | property p => exact congrFun (hask _ hs) c
  | texts ts => exact congrFun (hask _ hs) c
  | union a b iha ihb | inter a b iha ihb | diff a b iha ihb =>
    simp only [has, iha hs.1, ihb hs.2]
  | complement a ih => simp only [has, ih hs]

/-- Folding keeps a steady set as a whole. -/
theorem isSteady_has (hs : s.Steady) : IsSteady (s.has id isAsciiWord) := by
  induction s with
  | empty => exact fun _ _ _ => rfl
  | span low high => exact hs
  | digit => exact isSteady_digit
  | space => exact isSteady_space
  | word => exact hs.elim
  | property p => exact hs
  | texts ts => exact hs
  | union a b iha ihb | inter a b iha ihb | diff a b iha ihb =>
    intro c d hd
    simp only [has, iha hs.1 c d hd, ihb hs.2 c d hd]
  | complement a ih =>
    intro c d hd
    simp only [has, ih hs c d hd]

/-- **A steady set accepts the same characters in all modes.** -/
theorem accepts_of_steady {g : Grammar} (hg : g.isStrict = true) (hs : s.Steady) (m : Mode)
    (negated : Bool) (c : Char) :
    s.accepts g m negated c = (negated != s.has id isAsciiWord c) := by
  have hask : ∀ p, IsSteady p → (fun c => p c || (g.alike c).any p) = p := by
    intro p hp
    funext c
    cases hpc : p c with
    | true => rfl
    | false =>
      rw [Bool.false_or, List.any_eq_false, Grammar.alike, if_pos hg]
      intro d hd
      rw [hp c d hd, hpc]
      exact Bool.false_ne_true
  have hword : s.has id (m.isWord g) = s.has id isAsciiWord :=
    funext (has_of_steady (fun _ _ => rfl) hs _)
  simp only [accepts, hword]
  split
  · rfl
  · rw [has_of_steady hask hs]
  · exact congrArg (negated != ·) (congrFun (hask _ (isSteady_has hs)) c)

end CharSet

end Diglot.Host
