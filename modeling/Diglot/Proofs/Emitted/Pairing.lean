import Diglot.Proofs.Emitted.Matching

/-!
# Pairs of parentheses

The searches for the other end of a group go in opposite directions, and either may give up on
tokens that are not balanced. From both ends the same is searched for: the two tokens are a pair if
and only if what stands between them is balanced, whatever stands around them
(`matching_inverse`).
-/

namespace Diglot.Emitted

variable {ts : List Token} {opener closer : Token} {i j depth : Nat}

/-- The tokens before the one that is found close all groups but one. -/
theorem closesEach_of_closeFrom (h : closeFrom i (depth + 1) ts = some j) :
    i ≤ j ∧ closesEach depth (ts.take (j - i)) = true := by
  induction ts generalizing i depth with
  | nil => cases h
  | cons t ts ih =>
    -- a token that the search goes on after is the first of those before the one found
    have hfirst (hle : i + 1 ≤ j) : (t :: ts).take (j - i) = t :: ts.take (j - (i + 1)) := by
      rw [show j - i = j - (i + 1) + 1 by omega, List.take_succ_cons]
    by_cases ho : t.kind.isOpen
    · rw [closeFrom_open ho] at h
      obtain ⟨hle, hcloses⟩ := ih h
      rw [hfirst hle, closesEach_open ho]
      exact ⟨by omega, hcloses⟩
    · by_cases hc : t.kind = .close
      · rw [closeFrom_closer hc] at h
        split at h
        next hzero =>
          cases h
          simp [hzero, closesEach]
        next hpos =>
          obtain ⟨outer, rfl⟩ := Nat.exists_eq_succ_of_ne_zero hpos
          obtain ⟨hle, hcloses⟩ := ih h
          rw [hfirst hle, closesEach_closer hc]
          exact ⟨by omega, hcloses⟩
      · rw [Bool.not_eq_true] at ho
        rw [closeFrom_other ho hc] at h
        obtain ⟨hle, hcloses⟩ := ih h
        rw [hfirst hle, closesEach_other ho hc]
        exact ⟨by omega, hcloses⟩

/-- Two tokens divide the list into what is before, between and after them. -/
theorem eq_append_extract (hij : i < j) (hi : ts[i]? = some opener) (hj : ts[j]? = some closer) :
    ts = ts.take i ++ opener :: (ts.extract (i + 1) j ++ closer :: ts.drop (j + 1)) := by
  obtain ⟨hilt, rfl⟩ := List.getElem?_eq_some_iff.1 hi
  obtain ⟨hjlt, rfl⟩ := List.getElem?_eq_some_iff.1 hj
  have hrest : ts.drop j = (ts.drop (i + 1)).drop (j - (i + 1)) := by
    rw [List.drop_drop]
    congr 1
    omega
  rw [← List.drop_eq_getElem_cons hjlt, hrest, List.extract_eq_take_drop, List.take_append_drop,
    ← List.drop_eq_getElem_cons hilt, List.take_append_drop]

section

variable (hi : ts[i]? = some opener) (ho : opener.kind.isOpen) (hj : ts[j]? = some closer)
  (hc : closer.kind = .close)

include hi ho hj hc

/-- **Forwards the search finds the token that ends balanced ones.** -/
theorem matchingClose_eq_some_iff :
    matchingClose ts i = some j ↔ i < j ∧ Balanced (ts.extract (i + 1) j) := by
  constructor
  · intro h
    obtain ⟨hilt, rfl⟩ := List.getElem?_eq_some_iff.1 hi
    rw [matchingClose, List.drop_eq_getElem_cons hilt, closeFrom_open ho] at h
    obtain ⟨hij, hcloses⟩ := closesEach_of_closeFrom h
    exact ⟨hij, balanced_iff.2 (by rwa [List.extract_eq_take_drop])⟩
  · rintro ⟨hij, hbody⟩
    have hfound := matchingClose_balanced ho hc hbody (ts.take i) (ts.drop (j + 1))
    obtain ⟨hjlt, -⟩ := List.getElem?_eq_some_iff.1 hj
    rw [← eq_append_extract hij hi hj, List.length_take_of_le (by omega)] at hfound
    rw [hfound, List.extract_eq_take_drop, List.length_take_of_le (by simp; omega)]
    congr 1
    omega

/-- **Backwards the search finds the token that begins balanced ones.** -/
theorem matchingOpen_eq_some_iff :
    matchingOpen ts j = some i ↔ i < j ∧ Balanced (ts.extract (i + 1) j) := by
  obtain ⟨hjlt, rfl⟩ := List.getElem?_eq_some_iff.1 hj
  constructor
  · intro h
    have hlength : (ts.take j).length = j := List.length_take_of_le (by omega)
    have hback : matchingOpen (ts.take j ++ ts[j] :: ts.drop (j + 1)) (ts.take j).length = some i := by
      rwa [← List.drop_eq_getElem_cons hjlt, List.take_append_drop, hlength]
    obtain ⟨outer, opener, body, hbefore, -, hbody, rfl⟩ := exists_of_matchingOpen hc hback
    have hbetween : ts.extract (outer.length + 1) j = body := by
      rw [List.extract_eq_take_drop, ← List.drop_take, hbefore]
      simp
    rw [hbefore, List.length_append, List.length_cons] at hlength
    exact ⟨by omega, hbetween ▸ hbody⟩
  · rintro ⟨hij, hbody⟩
    have hfound := matchingOpen_balanced ho hc hbody (ts.take i) (ts.drop (j + 1))
    rw [← eq_append_extract hij hi hj, List.length_take_of_le (by omega),
      List.extract_eq_take_drop, List.length_take_of_le (by simp; omega)] at hfound
    rwa [show i + (j - (i + 1)) + 1 = j by omega] at hfound

end

/-- **The searches for the other end of a group are inverse to each other**, and the tokens
between the two ends are balanced. -/
theorem matching_inverse (hi : ts[i]? = some opener) (ho : opener.kind.isOpen)
    (hj : ts[j]? = some closer) (hc : closer.kind = .close) :
    (matchingClose ts i = some j ↔ matchingOpen ts j = some i) ∧
      (matchingClose ts i = some j ∨ matchingOpen ts j = some i →
        i < j ∧ Balanced (ts.extract (i + 1) j)) := by
  rw [matchingClose_eq_some_iff hi ho hj hc, matchingOpen_eq_some_iff hi ho hj hc, or_self]
  exact ⟨Iff.rfl, id⟩

/-- The tokens of `)((a))(`. -/
def strayTokens : List Token :=
  [⟨.close, [')']⟩, ⟨.captureOpen none, ['(']⟩, ⟨.captureOpen none, ['(']⟩, ⟨.atom, ['a']⟩,
    ⟨.close, [')']⟩, ⟨.close, [')']⟩, ⟨.captureOpen none, ['(']⟩]

theorem matching_inverse_stray : matchingClose strayTokens 1 = some 5 ∧
    matchingOpen strayTokens 5 = some 1 ∧ Balanced (strayTokens.extract 2 5) := by
  have hclose : matchingClose strayTokens 1 = some 5 := rfl
  obtain ⟨hiff, hbody⟩ := matching_inverse (show strayTokens[1]? = some _ from rfl) rfl
    (show strayTokens[5]? = some _ from rfl) rfl
  exact ⟨hclose, hiff.1 hclose, (hbody (.inl hclose)).2⟩

end Diglot.Emitted
