import Diglot.Proofs.Expression.Calls
import Diglot.Proofs.Host.Within
import Diglot.Proofs.Outcome
import Diglot.Proofs.Search.FirstMatch

/-!
# Global searches enumerate all matches

All matches of a text can be had at once, or by global searches one after the other. The first way
keeps a position for itself, the second way leaves the offset behind a match in the expression. As
long as no match is empty both search from the same places, so they find the same.
-/

namespace Diglot

open Host (Found Regex)

variable {search : HostSearch} {size : Nat}

/-! ## Searches that go forward -/

/-- What is found from a position of the text on lies between that position and the end. -/
def HostSearch.GoesForward (search : HostSearch) (size : Nat) : Prop :=
  ∀ p f, p ≤ size → search p = some f →
    p ≤ f.span.start ∧ f.span.start ≤ f.span.stop ∧ f.span.stop ≤ size

theorem goesForward_search (r : Regex) (text : Array Char) :
    HostSearch.GoesForward (r.search text) text.size := by
  intro p f _ h
  have hfirst := (exact_search r text).first p
  rw [h] at hfirst
  obtain ⟨q, hq, hsize, -, hf, -⟩ := hfirst
  obtain ⟨hstart, hspan⟩ := Regex.span_of_matchAt hsize hf
  rw [hstart]
  exact ⟨hq, hspan⟩

theorem goesForward_firstAccepted (h : search.GoesForward size) (accepts : Nat → Bool) :
    HostSearch.GoesForward (firstAccepted search accepts size) size := by
  intro p f hp hf
  fun_induction firstAccepted search accepts size p with
  | case1 => cases hf
  | case2 p found hs ha =>
    obtain rfl := Option.some.inj hf
    exact h p _ hp hs
  | case3 p found hs _ hbound ih =>
    obtain ⟨hstart, hspan⟩ := ih hbound.2 hf
    exact ⟨by omega, hspan⟩
  | case4 => cases hf

/-- **Under every plan a search goes forward** if the host's does. -/
theorem Emulation.goesForward_find (e : Emulation) {text : Array Char}
    (h : search.GoesForward text.size) : HostSearch.GoesForward (e.find text search) text.size := by
  unfold Emulation.find
  cases e.strategy with
  | none => exact h
  | some s =>
    cases s with
    | notSearchStart | lineOrSearchStart | stringOrSearchStart =>
      exact fun p f hp hf => goesForward_firstAccepted h _ p f hp hf
    | searchStart =>
      intro p f hp hf
      exact h p f hp (Option.filter_eq_some_iff.1 hf).1

/-! ## One search after the other -/

namespace Expression

variable {r : Regex} {text : String}

/-- A global search from a position of the text. What it leaves behind is the offset of the end of
the match. -/
theorem exec_at {x : Expression} (hg : x.isGlobal = true) (hr : x.prepare.2 = .ok r) {p : Nat}
    (hp : p ≤ text.toList.length) (hlast : x.lastIndex = Text.offsetOf text.toList p) :
    x.exec text =
      let found := (x.search r text.toList.toArray p).map (x.captures (Text.offsetOf text.toList))
      ({ x with regex := some r, lastIndex := (found.map (·.stop)).getD 0 }, .ok found) := by
  have hindex : Text.indexAt? text.toList x.lastIndex = some p := by
    rw [hlast, Text.indexAt?_offsetOf hp]
  rw [exec_of_global hg hr, foundAt, hindex]
  rfl

/-- From a position on, global searches find what `allFrom` lists. The induction is along that list:
as no match is empty, each one is followed by a search from its end. -/
theorem answers_exec {find : HostSearch} {report : Found → Captures} {size : Nat} (p : Nat)
    (hsize : size = text.toList.length) (hf : find.GoesForward size) (hp : p ≤ size)
    (hne : ∀ f ∈ allFrom find size p, f.span.start ≠ f.span.stop) {x : Expression}
    (hg : x.isGlobal = true) (hr : x.prepare.2 = .ok r)
    (hfind : x.search r text.toList.toArray = find)
    (hreport : x.captures (Text.offsetOf text.toList) = report)
    (hlast : x.lastIndex = Text.offsetOf text.toList p) :
    x.answers (List.replicate ((allFrom find size p).length + 1) (.exec text))
      = (allFrom find size p).map (fun f => (.found (.ok (some (report f))), (report f).stop))
        ++ [(.found (.ok none), 0)] := by
  fun_induction allFrom find size p generalizing x with
  | case1 p hnone =>
    have hexec := exec_at hg hr (hsize ▸ hp) hlast
    rw [hfind, hnone] at hexec
    show [(Answer.found (x.exec text).2, (x.exec text).1.lastIndex)] = _
    rw [hexec]
    rfl
  | case2 p found hfound hbound ih =>
    have hspan : found.span.stop ≠ found.span.start := (hne found List.mem_cons_self).symm
    have hresume : found.resume = found.span.stop := if_neg hspan
    rw [hresume] at hbound hne ih ⊢
    have hexec := exec_at hg hr (hsize ▸ hp) hlast
    rw [hfind, hreport, hfound] at hexec
    show (Answer.found (x.exec text).2, (x.exec text).1.lastIndex) ::
      (x.exec text).1.answers (List.replicate _ (.exec text)) = _
    rw [hexec]
    refine congrArg₂ List.cons rfl ?_
    refine ih hbound.2 (fun f hf => hne f (List.mem_cons_of_mem _ hf)) hg rfl hfind hreport ?_
    rw [← hreport]
    rfl
  | case3 p found hfound hbound =>
    -- a match that is not empty lies before the end, so the search goes on
    have hspan : found.span.stop ≠ found.span.start := (hne found List.mem_cons_self).symm
    have hresume : found.resume = found.span.stop := if_neg hspan
    obtain ⟨h₁, h₂, h₃⟩ := hf p found hp hfound
    omega

/-- Where a global search goes on is neither read nor changed when all matches are looked for. -/
theorem findAll_lastIndex (x : Expression) (text : String) (index : Nat) :
    { x with lastIndex := index }.findAll text
      = ({ (x.findAll text).1 with lastIndex := index }, (x.findAll text).2) := by
  obtain ⟨source, flags, emulation, visible, names, regex, lastIndex⟩ := x
  unfold findAll prepare
  cases regex with
  | some r => rfl
  | none =>
    dsimp only
    cases compile source flags <;> rfl

/-- What the pattern is compiled to, if all matches can be looked for. -/
theorem exists_prepare_of_findAll {x : Expression} {text : String} {ms : List Captures}
    (h : (x.findAll text).2 = .ok ms) : ∃ r, x.prepare.2 = .ok r ∧ ms = x.foundAll r text := by
  cases hr : x.prepare.2 with
  | error e =>
    have hprepare : x.prepare = (x.prepare.1, .error e) := Prod.ext rfl hr
    unfold findAll at h
    rw [hprepare] at h
    cases h
  | ok r =>
    rw [findAll_eq hr] at h
    cases h
    exact ⟨r, rfl, rfl⟩

/-- **Global searches enumerate all matches.** If none of the matches of a text is empty, global
searches from the front of the text on give them in order. Each leaves the offset of the end of its
match, and a last one finds nothing and goes back to the front. Looking for all matches at once has
nothing to do with where a global search goes on. -/
theorem exec_enumerates :
    (∀ (x : Expression) (text : String) (ms : List Captures), x.isGlobal = true →
      x.lastIndex = 0 → (x.findAll text).2 = .ok ms → (∀ m ∈ ms, m.start ≠ m.stop) →
      x.answers (List.replicate (ms.length + 1) (.exec text))
        = ms.map (fun m => (.found (.ok (some m)), m.stop)) ++ [(.found (.ok none), 0)]) ∧
    ∀ (x : Expression) (text : String) (index : Nat),
      { x with lastIndex := index }.findAll text
        = ({ (x.findAll text).1 with lastIndex := index }, (x.findAll text).2) := by
  refine ⟨?_, findAll_lastIndex⟩
  intro x text ms hg hlast hall hne
  obtain ⟨r, hr, rfl⟩ := exists_prepare_of_findAll hall
  have hforward := x.plan.goesForward_find (goesForward_search r text.toList.toArray)
  have hnonempty : ∀ f ∈ allFrom (x.search r text.toList.toArray) text.toList.toArray.size 0,
      f.span.start ≠ f.span.stop := by
    intro f hf heq
    refine hne _ (List.mem_map_of_mem hf) ?_
    show Text.offsetOf text.toList f.span.start = Text.offsetOf text.toList f.span.stop
    rw [heq]
  have hanswers := answers_exec 0 List.size_toArray hforward (Nat.zero_le _) hnonempty hg hr rfl rfl
    (hlast.trans (Text.offsetOf_zero _).symm)
  rw [foundAll, List.length_map, List.map_map]
  exact hanswers

/-- Two matches of a pattern that has to match where the search starts: the third `a` is not reached
over the `b` before it. -/
theorem exec_enumerates_example : ∃ x,
    emulated "(a)" "gv" { hidden := [1], strategy := some .searchStart } = .ok x ∧
    x.answers (List.replicate 3 (.exec "aaba")) =
      [(.found (.ok (some ⟨0, 1, [], []⟩)), 1), (.found (.ok (some ⟨1, 2, [], []⟩)), 2),
        (.found (.ok none), 0)] := by
  obtain ⟨x, hx, hg, hlast, hms⟩ : ∃ x,
      emulated "(a)" "gv" { hidden := [1], strategy := some .searchStart } = .ok x ∧
      x.isGlobal = true ∧ x.lastIndex = 0 ∧
      (x.findAll "aaba").2 = .ok [⟨0, 1, [], []⟩, ⟨1, 2, [], []⟩] := by
    decide +kernel
  exact ⟨x, hx, exec_enumerates.1 x _ _ hg hlast hms (by decide)⟩

end Expression

end Diglot
