import Diglot.Proofs.Emitted.Sound

/-!
# Hexadecimal digits

A code point that is written in capital hexadecimal digits is read back as itself, however many
zeros stand before it.
-/

namespace Diglot.Emitted

open Text

theorem digitValue_upper {d : Nat} (h : d < 16) : digitValue d.digitChar.toUpper = some d := by
  have hall : ∀ d < 16, digitValue d.digitChar.toUpper = some d := by decide
  exact hall d h

theorem ofDigits_concat (radix : Nat) (cs : List Char) (c : Char) :
    ofDigits radix (cs ++ [c]) = ofDigits radix cs * radix + (digitValue c).getD 0 := by
  simp [ofDigits]

/-- Zeros before a number do not change it. -/
theorem ofDigits_zeros (radix n : Nat) (cs : List Char) :
    ofDigits radix (List.replicate n '0' ++ cs) = ofDigits radix cs := by
  have hzero : digitValue '0' = some 0 := by decide
  induction n with
  | zero => rfl
  | succ n ih =>
    rw [← ih, List.replicate_succ, List.cons_append, ofDigits, ofDigits, List.foldl_cons, hzero,
      Nat.zero_mul, Nat.zero_add, Option.getD_some]

/-- The digits of a number are those of its sixteenth part, and one more. -/
theorem ofDigits_upper (n : Nat) : ofDigits 16 ((Nat.toDigits 16 n).map Char.toUpper) = n := by
  induction n using Nat.strongRecOn with
  | ind n ih =>
    rw [Nat.toDigits_eq_if (by decide)]
    split
    · next hlt => simp [ofDigits, digitValue_upper hlt]
    · next hge =>
      have hdigit := digitValue_upper (Nat.mod_lt n (show 0 < 16 by decide))
      rw [List.map_append, List.map_singleton, ofDigits_concat, ih (n / 16) (by omega), hdigit,
        Option.getD_some]
      omega

theorem isDigit_of_mem_hexDigits {width n : Nat} {c : Char} (h : c ∈ hexDigits width n) :
    isDigit 16 c := by
  rw [hexDigits] at h
  rcases List.mem_append.1 h with h | h
  · rw [(List.mem_replicate.1 h).2]
    decide
  · obtain ⟨d, hd, rfl⟩ := List.mem_map.1 h
    obtain ⟨k, hk, rfl⟩ := exists_digit_of_mem_toDigits (by decide) hd
    rw [isDigit, digitValue_upper hk]
    simpa using hk

/-- **A number below the bound is read from its hexadecimal digits**, and no other number is. -/
theorem number?_hexDigits (width n bound : Nat) :
    number? 16 bound (hexDigits width n) = if n < bound then some n else none := by
  have hne : (hexDigits width n).isEmpty = false := by simp [hexDigits]
  have hall : (hexDigits width n).all (isDigit 16) = true :=
    List.all_eq_true.2 fun c hc => isDigit_of_mem_hexDigits hc
  have hval : ofDigits 16 (hexDigits width n) = n := by
    rw [hexDigits, ofDigits_zeros, ofDigits_upper]
  simp [number?, hne, hall, hval]

end Diglot.Emitted
