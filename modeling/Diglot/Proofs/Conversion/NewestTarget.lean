import Diglot.Proofs.Conversion.FaultPlaces
import Diglot.Proofs.Conversion.References
import Diglot.Proofs.Conversion.Targets
import Diglot.Proofs.Core.References

/-!
# What the newest target lacks

The newest target has modifier groups, so a reference that ignores case can stand in a pattern that
does not. Only a reference to no group is not put into a modifier group. It never matches, in any
case, and still strict accuracy refuses it for its case. Apart from that, no pattern is refused for
the lack of a target.
-/

namespace Diglot

open Emitted Reduction

/-- The kind of the error of a computation that fails. -/
def errorKind? {α : Type} (x : Except Error α) : Option ErrorKind :=
  match x with
  | .ok _ => none
  | .error e => some e.kind

theorem Fails.errorKind?_ne {α : Type} {x : Except Error α} {k : ErrorKind}
    (h : Fails (·.kind ≠ k) x) : errorKind? x ≠ some k := by
  cases x with
  | ok a => simp [errorKind?]
  | error e =>
    intro heq
    exact h e rfl (Option.some.inj heq)

/-! ## Reductions -/

theorem fails_scan (text : List Char) : Fails (·.kind ≠ .target) (scan text) := by
  suffices h : ∀ position, Fails (·.kind ≠ .target) (scanFrom position text) from h 0
  intro position
  fun_induction scanFrom position text with
  | case1 => exact .ok _
  | case2 => exact .error (by simp [Error.kind])
  | case3 _ _ _ _ _ _ ih => exact ih.bind fun _ => .ok _

theorem fails_region (tokens : List Token) (marker : Nat) (kind : Kind) :
    Fails (·.kind ≠ .target) (region tokens marker kind) := by
  unfold region
  split
  · split
    · exact .error (by simp [Error.kind])
    · split
      · exact .error (by simp [Error.kind])
      · split
        · exact .ok _
        · exact .error (by simp [Error.kind])
  · exact .ok _

theorem fails_unrollRecursion (p : Draft) : Fails (·.kind ≠ .target) (unrollRecursion p) := by
  refine (fails_scan _).bind fun tokens => ?_
  split
  · exact .ok _
  · refine .bind ((fails_region _ _ _).bind fun _ => ?_) fun _ => .ok _
    dsimp only
    split
    · exact .error (by simp [Error.kind])
    · exact .ok _
  · exact .error (by simp [Error.kind])

theorem fails_targetStart (tokens : List Token) (i : Nat) :
    Fails (·.kind ≠ .target) (targetStart tokens i) := by
  unfold targetStart
  split
  · exact .error (by simp [Error.kind])
  · split
    · split
      · split
        · exact .ok _
        · exact .error (by simp [Error.kind])
      · exact .ok _
    · exact .error (by simp [Error.kind])

theorem fails_groupPossessive (p : Draft) : Fails (·.kind ≠ .target) (groupPossessive p) := by
  refine (fails_scan _).bind fun tokens => ?_
  refine .bind (.mapM (fun _ => fails_targetStart _ _) _) fun starts => ?_
  split <;> exact .ok _

theorem fails_atomicPieces (size : Nat) (u : Unfolding) (i : Nat) (ts : List Token) :
    Fails (·.kind ≠ .target) (atomicPieces size u i ts) := by
  induction ts generalizing u i with
  | nil =>
    unfold atomicPieces
    split
    · exact .ok _
    · exact .error (by simp [Error.kind])
  | cons t ts ih =>
    unfold atomicPieces
    split
    · exact (ih _ _).bind fun _ => .ok _
    · exact (ih _ _).bind fun _ => .ok _
    · exact (ih _ _).bind fun _ => .ok _
    · exact (ih _ _).bind fun _ => .ok _
    · split
      · exact .error (by simp [Error.kind])
      · exact (ih _ _).bind fun _ => .ok _
      · exact (ih _ _).bind fun _ => .ok _
    · exact (ih _ _).bind fun _ => .ok _
    · exact (ih _ _).bind fun _ => .ok _

theorem fails_unfoldAtomic (p : Draft) : Fails (·.kind ≠ .target) (unfoldAtomic p) := by
  refine (fails_scan _).bind fun tokens => ?_
  split
  · exact .ok _
  · exact (fails_atomicPieces _ _ _ _).bind fun _ => .ok _

theorem fails_finish (s : Settings) (strategy : Option Strategy) (w : Written) :
    Fails (·.kind ≠ .target) (s.finish strategy w) := by
  refine .bind ?_ fun p => ?_
  · exact (fails_unrollRecursion _).bind fun p =>
      (fails_groupPossessive p).bind fun p => fails_unfoldAtomic p
  · split
    · exact .error (by simp [Error.kind])
    · exact .ok _

/-! ## Conversions -/

/-- Whether the node is a reference to no group that ignores case. -/
def Core.Node.isCaselessOrphan : Core.Node → Bool
  | .backreference [] true => true
  | _ => false

/-- A reference to no group that ignores case, where strict accuracy is asked for and not all of the
pattern ignores case. -/
structure StrictOrphan (o : Options) (pattern : String) : Prop where
  strict : o.strict = true
  allowed : o.rules.allowOrphans = true
  found : ∃ s source core, o.normalize = .ok s ∧
    Source.Pattern.read s.reading pattern.toList = .ok source ∧ source.HasOrphan ∧
    Core.Pattern.lower s.lowering source = .ok core ∧
    caseMode core.root = .mixed ∧ core.root.walk.any (·.isCaselessOrphan)

/-- With modifier groups, only a reference without targets is left out of them. -/
theorem eq_nil_of_isCaselessLeaf {w : Writing} (htarget : w.options.target = .es2025)
    (hmode : w.mode = .mixed) {targets : List Nat}
    (h : w.isCaselessLeaf (.backreference targets true) = false) : targets = [] := by
  by_contra hne
  have hleaf : leafCase? (.backreference targets true) = some true := by
    simp [leafCase?, hne]
  have hgroups : w.usesModifierGroups = true := by
    simp [Writing.usesModifierGroups, hmode, htarget, Target.hasFlagGroups]
  rw [Writing.isCaselessLeaf, hleaf, hgroups] at h
  cases h

/-- A tree that is refused for the newest target has a reference without targets. -/
theorem orphan_of_refusal {s : Settings} (htarget : s.target = .es2025) {root : Core.Node}
    {e : Error} (h : writePattern s.writing root = .error e) (hkind : e.kind = .target) :
    s.strict = true ∧ caseMode root = .mixed ∧ .backreference [] true ∈ root.walk := by
  cases fails_writePattern _ _ e h with
  | unsupported f => cases hkind
  | caselessReference hmem hstrict hmode hleaf =>
    obtain rfl := eq_nil_of_isCaselessLeaf htarget hmode hleaf
    exact ⟨hstrict, hmode, hmem⟩

/-- **The newest target is enough for every pattern**, but for references to no group that ignore
case in a part of the pattern, under strict accuracy. -/
theorem newest_target_suffices {o : Options} (htarget : o.target = none ∨ o.target = some .es2025)
    {pattern : String} (horphan : ¬ StrictOrphan o pattern) :
    errorKind? (Conversion.ofSource o pattern) ≠ some .target := by
  have hedition : o.edition = .es2025 := by
    rcases htarget with h | h <;> rw [Options.edition, h] <;> rfl
  refine Fails.errorKind?_ne fun e h hkind => ?_
  rcases error_of_bind h with h | ⟨_, -, h⟩
  · rcases error_of_bind h with h | ⟨s, hs, h⟩
    · rcases fails_normalize o e h with hother | hother <;> cases hother.symm.trans hkind
    rcases error_of_bind h with hread | ⟨source, hread, h⟩
    · cases Source.refused_of_read hread <;> cases hkind
    rcases error_of_bind h with h | ⟨core, hlower, h⟩
    · obtain ⟨f, -, rfl⟩ := (Core.ends_lower _ _).fails e h
      cases hkind
    rcases error_of_bind h with hwrite | ⟨written, -, h⟩
    · have hnewest := (settings_of_normalize hs).1.trans hedition
      obtain ⟨hstrict, hmixed, hmem⟩ := orphan_of_refusal hnewest hwrite hkind
      -- the reference is one of the source, where it has been allowed
      obtain ⟨place, ref, hsource⟩ := Core.orphan_of_lower hlower hmem
      obtain ⟨hallowed, hhas⟩ := Source.allowOrphans_of_read hread hsource
      refine horphan ⟨(strict_of_normalize hs).symm.trans hstrict, ?_, s, source, core, hs, hread,
        hhas, hlower, hmixed, List.any_eq_true.2 ⟨_, hmem, rfl⟩⟩
      rw [← (rules_of_normalize hs).1]
      exact hallowed
    rcases error_of_bind h with h | ⟨_, -, h⟩
    · exact fails_finish _ _ _ e h hkind
    · cases h
  · cases h

/-- A reference in a part that ignores case needs the newest target. A reference to no group in
another part does not get in its way. -/
theorem newest_target_suffices_mixed :
    errorKind? (Conversion.ofSource
      { strict := true, rules := { allowOrphans := true }, target := some .es2024 }
      "(?i:(a)\\1)b\\2") = some .target ∧
    errorKind? (Conversion.ofSource
      { strict := true, rules := { allowOrphans := true }, target := some .es2025 }
      "(?i:(a)\\1)b\\2") ≠ some .target := by
  refine ⟨by decide +kernel, newest_target_suffices (.inr rfl) fun h => ?_⟩
  obtain ⟨s, source, core, hs, hread, -, hlower, -, horphan⟩ := h.found
  obtain ⟨_, hs', _, hread', _, hlower', hnone⟩ : ∃ s, Options.normalize
        { strict := true, rules := { allowOrphans := true }, target := some .es2025 } = .ok s ∧
      ∃ source, Source.Pattern.read s.reading "(?i:(a)\\1)b\\2".toList = .ok source ∧
      ∃ core, Core.Pattern.lower s.lowering source = .ok core ∧
        core.root.walk.any (·.isCaselessOrphan) = false := by
    decide +kernel
  cases hs.symm.trans hs'
  cases hread.symm.trans hread'
  cases hlower.symm.trans hlower'
  cases horphan.symm.trans hnone

/-- A reference to no group is refused for its case, though it never matches. -/
theorem orphan_refused_for_case :
    errorKind? (Conversion.ofSource
      { strict := true, rules := { allowOrphans := true }, target := some .es2025 }
      "(?i:a\\2)b") = some .target := by
  decide +kernel

end Diglot
