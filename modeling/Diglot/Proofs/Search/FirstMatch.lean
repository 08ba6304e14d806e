import Diglot.Search

/-!
# First matches

What it means that a search finds the first match, and that the searches of the host and of a
strategy do. The host's search is the first match at or after a position, and what it finds depends
on where the match starts only. A strategy then finds the first match whose start it accepts.
-/

namespace Diglot

open Host (Found)

variable {search : HostSearch} {matchAt : Nat → Option Found} {size : Nat}

/-- The result is what there is to find at the first place from `start` to `size` where `Holds` is
true and something is found, or nothing if there is no such place. -/
def IsFirst (find : Nat → Option Found) (Holds : Nat → Prop) (size start : Nat) :
    Option Found → Prop
  | some f => ∃ p, start ≤ p ∧ p ≤ size ∧ Holds p ∧ find p = some f ∧
      ∀ q, start ≤ q → q < p → Holds q → find q = none
  | none => ∀ p, start ≤ p → p ≤ size → Holds p → find p = none

/-- The same places are asked. -/
theorem IsFirst.congr {find : Nat → Option Found} {Holds Holds' : Nat → Prop} {size start : Nat}
    {result : Option Found} (h : IsFirst find Holds size start result)
    (hiff : ∀ p, p ≤ size → (Holds p ↔ Holds' p)) : IsFirst find Holds' size start result := by
  cases result with
  | none => exact fun p hp hsize hh => h p hp hsize ((hiff p hsize).2 hh)
  | some f =>
    obtain ⟨p, hp, hsize, hh, hf, hfirst⟩ := h
    exact ⟨p, hp, hsize, (hiff p hsize).1 hh, hf, fun q hq hlt hh' =>
      hfirst q hq hlt ((hiff q (by omega)).2 hh')⟩

/-- A search finds the matches that `matchAt` gives for their starts, the first one from a position
on. -/
structure HostSearch.Exact (search : HostSearch) (matchAt : Nat → Option Found) (size : Nat) :
    Prop where
  starts : ∀ p f, matchAt p = some f → f.span.start = p
  first : ∀ p, IsFirst matchAt (fun _ => True) size p (search p)

/-! ## The host -/

theorem isFirst_firstOf (f : Nat → Option Found) (count p size : Nat) (h : p + count = size + 1) :
    IsFirst f (fun _ => True) size p (Host.firstOf f count p) := by
  induction count generalizing p with
  | zero =>
    intro q hq hsize
    omega
  | succ count ih =>
    rw [Host.firstOf]
    cases hf : f p with
    | some a => exact ⟨p, Nat.le_refl p, by omega, trivial, hf, fun q hq hlt => by omega⟩
    | none =>
      have hrest := ih (p + 1) (by omega)
      -- nothing is found at `p`, so the first place is a later one
      have hskip : ∀ {q}, p ≤ q → (p + 1 ≤ q → f q = none) → f q = none := by
        intro q hq hlater
        by_cases heq : q = p
        · rw [heq, hf]
        · exact hlater (by omega)
      dsimp only
      cases hr : Host.firstOf f count (p + 1) with
      | none =>
        rw [hr] at hrest
        exact fun q hq hsize _ => hskip hq fun hq' => hrest q hq' hsize trivial
      | some a =>
        rw [hr] at hrest
        obtain ⟨q, hq, hsize, -, hfq, hfirst⟩ := hrest
        exact ⟨q, by omega, hsize, trivial, hfq, fun q' hq' hlt _ =>
          hskip hq' fun hq'' => hfirst q' hq'' hlt trivial⟩

/-- **The search of a regular expression is exact.** -/
theorem exact_search (r : Host.Regex) (text : Array Char) :
    HostSearch.Exact (r.search text) (r.matchAt text) text.size where
  starts p f h := by
    obtain ⟨t, -, rfl⟩ := Option.map_eq_some_iff.1 h
    rfl
  first p := by
    by_cases hp : p ≤ text.size + 1
    · exact isFirst_firstOf _ _ p _ (by omega)
    · rw [Host.Regex.search, Nat.sub_eq_zero_of_le (by omega)]
      intro q hq hsize
      omega

/-! ## Strategies -/

/-- A match that is not accepted, and with it everything up to its start, is passed over. -/
theorem isFirst_firstAccepted (h : search.Exact matchAt size) (accepts : Nat → Bool)
    (position : Nat) : IsFirst matchAt (accepts · = true) size position
      (firstAccepted search accepts size position) := by
  fun_induction firstAccepted search accepts size position with
  | case1 position hs =>
    have hfirst := h.first position
    rw [hs] at hfirst
    exact fun p hp hsize _ => hfirst p hp hsize trivial
  | case2 position found hs ha =>
    have hfirst := h.first position
    rw [hs] at hfirst
    obtain ⟨p, hp, hsize, -, hf, hbefore⟩ := hfirst
    rw [h.starts p found hf] at ha
    exact ⟨p, hp, hsize, ha, hf, fun q hq hlt _ => hbefore q hq hlt trivial⟩
  | case3 position found hs ha hbound ih =>
    have hfirst := h.first position
    rw [hs] at hfirst
    obtain ⟨p, hp, hsize, -, hf, hbefore⟩ := hfirst
    rw [h.starts p found hf] at ha ih ⊢
    have hskip : ∀ {q}, position ≤ q → accepts q = true → (p + 1 ≤ q → matchAt q = none) →
        matchAt q = none := by
      intro q hq hacc hlater
      by_cases hlt : q < p
      · exact hbefore q hq hlt trivial
      · by_cases heq : q = p
        · exact absurd (heq ▸ hacc) ha
        · exact hlater (by omega)
    cases hr : firstAccepted search accepts size (p + 1) with
    | none =>
      rw [hr] at ih
      exact fun q hq hle hacc => hskip hq hacc fun hq' => ih q hq' hle hacc
    | some f =>
      rw [hr] at ih
      obtain ⟨q, hq, hle, hacc, hfq, hbefore'⟩ := ih
      exact ⟨q, by omega, hle, hacc, hfq, fun q' hq' hlt hacc' =>
        hskip hq' hacc' fun hq'' => hbefore' q' hq'' hlt hacc'⟩
  | case4 position found hs ha hbound =>
    -- the match that is not accepted starts at the end of the text
    have hfirst := h.first position
    rw [hs] at hfirst
    obtain ⟨p, hp, hsize, -, hf, hbefore⟩ := hfirst
    rw [h.starts p found hf] at ha hbound
    intro q hq hle hacc
    by_cases hlt : q < p
    · exact hbefore q hq hlt trivial
    · have heq : q = p := by omega
      exact absurd (heq ▸ hacc) ha

/-- **A strategy finds the first match whose start it accepts.** -/
theorem isFirst_find {text : Array Char} (h : search.Exact matchAt text.size) (s : Strategy)
    {start : Nat} (hstart : start ≤ text.size) :
    IsFirst matchAt (s.accepts text start · = true) text.size start (s.find text search start) := by
  cases s with
  | notSearchStart | lineOrSearchStart | stringOrSearchStart => exact isFirst_firstAccepted h _ start
  | searchStart =>
    have hfirst := h.first start
    show IsFirst _ _ _ _ ((search start).filter (·.span.start == start))
    cases hs : search start with
    | none =>
      rw [hs] at hfirst
      exact fun p hp hsize _ => hfirst p hp hsize trivial
    | some f =>
      rw [hs] at hfirst
      obtain ⟨p, hp, hsize, -, hf, hbefore⟩ := hfirst
      rw [Option.filter_some, h.starts p f hf]
      by_cases heq : p = start
      · rw [heq] at hf
        rw [if_pos (by simp [heq])]
        exact ⟨start, Nat.le_refl _, hstart, by simp [Strategy.accepts], hf,
          fun q hq hlt => by omega⟩
      -- the first match starts later, so there is none at the start
      · rw [if_neg (by simp [heq])]
        intro q hq hle hacc
        have hqs : q = start := by simpa [Strategy.accepts] using hacc
        exact hbefore q hq (by omega) trivial

end Diglot
