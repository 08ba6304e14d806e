import Diglot.Text.Digits
import Mathlib.Data.List.Induction

/-!
# Numerals

A number written in decimal digits is read back as itself, and its digits can be told from what
comes after them.
-/

namespace Diglot.Text

/-! ## Decimal digits -/

theorem digitValue_of_isDigit {c : Char} (h : c.isDigit) :
    digitValue c = some (c.toNat - '0'.toNat) := by
  have hc : ('0' ≤ c && c ≤ '9') = true := h
  rw [digitValue, if_pos hc]

theorem isDigit_ten (c : Char) : isDigit 10 c = c.isDigit := by
  cases h : c.isDigit with
  | true =>
    have hle : c.toNat ≤ '9'.toNat := by
      simp only [Char.isDigit, Bool.and_eq_true, decide_eq_true_eq] at h
      exact h.2
    have h9 : '9'.toNat = 57 := rfl
    have h0 : '0'.toNat = 48 := rfl
    rw [isDigit, digitValue_of_isDigit h]
    simp only [Option.any_some, decide_eq_true_eq]
    omega
  | false =>
    -- letters have values too, but from ten on
    have hc : ¬('0' ≤ c && c ≤ '9') = true := by
      intro hc
      exact absurd (show c.isDigit = true from hc) (by simp [h])
    rw [isDigit, digitValue, if_neg hc]
    split
    · simp
    · split <;> simp

/-! ## Reading back -/

theorem ofDigits_eq_ofDigitChars {cs : List Char} (h : ∀ c ∈ cs, c.isDigit) (n : Nat) :
    cs.foldl (fun n c => n * 10 + (digitValue c).getD 0) n = Nat.ofDigitChars 10 cs n := by
  induction cs generalizing n with
  | nil => simp
  | cons c cs ih =>
    have hc := digitValue_of_isDigit (h c List.mem_cons_self)
    rw [List.foldl_cons, hc, Nat.ofDigitChars_cons, ih (fun d hd => h d (List.mem_cons_of_mem _ hd)),
      Nat.mul_comm, Option.getD_some]

/-- What it takes to write a number. -/
theorem number?_eq_some {radix bound n : Nat} {ds : List Char} : number? radix bound ds = some n ↔
    ds ≠ [] ∧ (∀ c ∈ ds, isDigit radix c) ∧ ofDigits radix ds = n ∧ n < bound := by
  unfold number?
  by_cases hds : (ds.isEmpty || !ds.all (isDigit radix)) = true
  · rw [if_pos hds]
    simp only [Bool.or_eq_true, List.isEmpty_iff, Bool.not_eq_true', List.all_eq_false] at hds
    constructor
    · intro h
      cases h
    · rintro ⟨hne, hall, -⟩
      rcases hds with hds | ⟨c, hc, hd⟩
      · exact absurd hds hne
      · exact absurd (hall c hc) hd
  · rw [if_neg hds]
    simp only [Bool.or_eq_true, List.isEmpty_iff, Bool.not_eq_true', not_or, Bool.not_eq_false,
      List.all_eq_true] at hds
    grind

/-- A number that does not begin with a zero is positive. -/
theorem ofDigits_pos {ds : List Char} (hz : ds.head?.any (· != '0')) (hds : ∀ c ∈ ds, isDigit 10 c) :
    0 < ofDigits 10 ds := by
  have hgrows : ∀ (cs : List Char) (n : Nat),
      n ≤ cs.foldl (fun n c => n * 10 + (digitValue c).getD 0) n := by
    intro cs
    induction cs with
    | nil => exact Nat.le_refl
    | cons c cs ih =>
      intro n
      have hstep : n ≤ n * 10 + (digitValue c).getD 0 := by omega
      exact Nat.le_trans hstep (ih _)
  cases ds with
  | nil => cases hz
  | cons d ds =>
    have hd : ('0' ≤ d && d ≤ '9') = true := by
      have hdigit := hds d List.mem_cons_self
      rw [isDigit_ten] at hdigit
      exact hdigit
    have hne : d ≠ '0' := by simpa using hz
    have hvalue : 0 < (digitValue d).getD 0 := by
      rw [digitValue_of_isDigit hd, Option.getD_some]
      simp only [Bool.and_eq_true, decide_eq_true_eq, Char.le_def] at hd
      have hval : '0'.toNat ≠ d.toNat := fun he => hne (Char.toNat_inj.1 he.symm)
      have hle : '0'.toNat ≤ d.toNat := hd.1
      omega
    have hfirst : 0 < 0 * 10 + (digitValue d).getD 0 := by omega
    exact Nat.lt_of_lt_of_le hfirst (hgrows ds _)

theorem isDigit_of_mem_decimal {n : Nat} {c : Char} (h : c ∈ Nat.toDigits 10 n) : c.isDigit :=
  Nat.isDigit_of_mem_toDigits (by decide) (by decide) h

theorem ofDigits_toDigits (n : Nat) : ofDigits 10 (Nat.toDigits 10 n) = n := by
  rw [ofDigits, ofDigits_eq_ofDigitChars (fun c hc => isDigit_of_mem_decimal hc),
    Nat.ofDigitChars_ten_toDigits]

/-- **A number below the bound is read from its decimal digits**, and no other number is. -/
theorem number?_toDigits (n bound : Nat) :
    number? 10 bound (Nat.toDigits 10 n) = if n < bound then some n else none := by
  have hne : (Nat.toDigits 10 n).isEmpty = false := by simp
  have hall : (Nat.toDigits 10 n).all (isDigit 10) = true := by
    rw [List.all_eq_true]
    intro c hc
    rw [isDigit_ten]
    exact isDigit_of_mem_decimal hc
  simp [number?, hne, hall, ofDigits_toDigits]

theorem exists_toDigits_eq_cons (n : Nat) : ∃ c cs, Nat.toDigits 10 n = c :: cs ∧ c.isDigit := by
  obtain ⟨c, cs, hc⟩ := List.exists_cons_of_ne_nil (Nat.toDigits_ne_nil (n := n) (b := 10))
  exact ⟨c, cs, hc, isDigit_of_mem_decimal (n := n) (by simp [hc])⟩

/-- A sign before the digits would be no digit, so there is none. -/
theorem signedNumber?_toDigits (n bound : Nat) :
    signedNumber? 10 bound (Nat.toDigits 10 n) = if n < bound then some n else none := by
  obtain ⟨c, cs, hc, hd⟩ := exists_toDigits_eq_cons n
  have hplus : c ≠ '+' := by rintro rfl; simp at hd
  rw [← number?_toDigits, hc]
  unfold signedNumber?
  split
  · next heq => cases heq; exact absurd rfl hplus
  · rfl

theorem digitChar_digitValue {d : Char} (h : d.isDigit) : ((digitValue d).getD 0).digitChar = d := by
  have hd : ('0' ≤ d && d ≤ '9') = true := h
  rw [digitValue_of_isDigit h, Option.getD_some]
  simp only [Bool.and_eq_true, decide_eq_true_eq, Char.le_def] at hd
  have hlow : '0'.toNat ≤ d.toNat := hd.1
  have hhigh : d.toNat ≤ '9'.toNat := hd.2
  have hten : d.toNat - '0'.toNat < 10 := by
    have hnine : '9'.toNat = '0'.toNat + 9 := rfl
    omega
  rw [← Char.toNat_inj, Nat.toNat_digitChar_of_lt_ten hten]
  have hzero : '0'.toNat = 48 := rfl
  omega

/-- Digits that do not begin with a zero are those of the number that they write. -/
theorem toDigits_ofDigits {ds : List Char} (hz : ds.head?.any (· != '0'))
    (hds : ∀ c ∈ ds, isDigit 10 c) : Nat.toDigits 10 (ofDigits 10 ds) = ds := by
  -- The last digit is the remainder by ten, so the induction is from the right.
  induction ds using List.reverseRecOn with
  | nil => cases hz
  | append_singleton ds d ih =>
    obtain ⟨hds, hd⟩ := List.forall_mem_append.1 hds
    have hdigit : d.isDigit := by
      rw [← isDigit_ten]
      exact hd d List.mem_cons_self
    have hchar := digitChar_digitValue hdigit
    have hlt : (digitValue d).getD 0 < 10 := by
      have hten := hd d List.mem_cons_self
      rw [isDigit, digitValue_of_isDigit hdigit] at hten
      rw [digitValue_of_isDigit hdigit]
      simpa using hten
    have hvalue : ofDigits 10 (ds ++ [d]) = ofDigits 10 ds * 10 + (digitValue d).getD 0 := by
      simp [ofDigits]
    rw [hvalue]
    by_cases hnil : ds = []
    · subst hnil
      rw [Nat.toDigits_eq_if (by decide), if_pos (by simpa [ofDigits] using hlt)]
      simpa [ofDigits] using hchar
    · have hz' : ds.head?.any (· != '0') := by
        obtain ⟨e, es, rfl⟩ := List.exists_cons_of_ne_nil hnil
        exact hz
      have hpos := ofDigits_pos hz' hds
      rw [Nat.toDigits_eq_if (by decide), if_neg (by omega),
        show (ofDigits 10 ds * 10 + (digitValue d).getD 0) / 10 = ofDigits 10 ds by omega,
        show (ofDigits 10 ds * 10 + (digitValue d).getD 0) % 10 = (digitValue d).getD 0 by omega,
        ih hz' hds, hchar]

/-- A positive number does not begin with a zero. -/
theorem toDigits_head_ne_zero {n : Nat} (h : 0 < n) : (Nat.toDigits 10 n).head? ≠ some '0' := by
  induction n using Nat.strongRecOn with
  | ind n ih =>
    rw [Nat.toDigits_eq_if (by decide)]
    split
    · next hlt =>
      intro hz
      have : n.digitChar.toNat = 48 := by
        rw [Option.some.inj (show some n.digitChar = some '0' from hz)]; rfl
      rw [Nat.toNat_digitChar_of_lt_ten hlt] at this
      omega
    · next hge =>
      have hrest := ih (n / 10) (by omega) (by omega)
      obtain ⟨c, cs, hc, _⟩ := exists_toDigits_eq_cons (n / 10)
      rw [hc] at hrest ⊢
      exact hrest

/-! ## Where digits end -/

/-- The digits at the front of a text are found up to something that is no digit. -/
theorem takeWhile_digits {ds follow : List Char} (hd : ∀ c ∈ ds, c.isDigit)
    (hf : ∀ c ∈ follow.head?, c.isDigit = false) :
    (ds ++ follow).takeWhile (isDigit 10) = ds := by
  rw [List.takeWhile_append_of_pos (fun c hc => by rw [isDigit_ten]; exact hd c hc)]
  cases follow with
  | nil => simp
  | cons c cs => simp [isDigit_ten, hf c (by simp)]

end Diglot.Text
