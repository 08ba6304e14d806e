import Diglot.Proofs.Conversion.Captures
import Diglot.Proofs.Core.RecursionSites
import Diglot.Proofs.Emitted.Leniency

/-!
# Where faults are

A fault that a conversion reports has a place. The readers of the source report places of the source,
and lowering and writing report no faults at all: they refuse features. The reductions read what has
been written, so a fault that they met would have a place there. They meet none, unless the name of a
property holds a bracket, which a property escape does not hide, or the text is too long.
-/

namespace Diglot.Source

variable {r : Resolver} {place opened : Nat} {ref : Reference} {e : Error} {x : Element}
  {o : ReadOptions} {text : List Char}

/-! ## Reading -/

/-- The place of a reference. -/
def Element.place? : Element → Option Nat
  | .backreference place _ _ | .subroutine place _ _ => some place
  | _ => none

theorem error_of_backreference (h : r.backreference place opened ref = .error e) :
    ∃ fault, e = .malformed place fault := by
  unfold Resolver.backreference at h
  repeat' split at h
  all_goals cases h
  all_goals exact ⟨_, rfl⟩

theorem error_of_subroutine (h : r.subroutine place opened ref = .error e) :
    ∃ fault, e = .malformed place fault := by
  unfold Resolver.subroutine at h
  repeat' split at h
  all_goals cases h
  all_goals exact ⟨_, rfl⟩

/-- What cannot be resolved is a reference, and the fault is where it is. -/
theorem Element.error_of_resolve (h : x.resolve r opened = .error e) :
    ∃ place fault, x.place? = some place ∧ e = .malformed place fault := by
  cases x with
  | backreference place ref targets =>
    rcases error_of_bind h with h | ⟨_, -, h⟩
    · obtain ⟨fault, rfl⟩ := error_of_backreference h
      exact ⟨place, fault, rfl, rfl⟩
    · cases h
  | subroutine place ref target =>
    rcases error_of_bind h with h | ⟨_, -, h⟩
    · obtain ⟨fault, rfl⟩ := error_of_subroutine h
      exact ⟨place, fault, rfl, rfl⟩
    · cases h
  | _ => cases h

theorem Element.Sound.place_le {size : Nat} (h : x.Sound size) (hplace : x.place? = some place) :
    place ≤ size := by
  cases x <;> cases hplace <;> exact h

/-- A pattern is refused for a fault in it, or at its end, or for a feature. -/
theorem refused_of_read (h : Pattern.read o text = .error e) : FaultWithin text.length e := by
  rcases error_of_bind h with htree | ⟨tree, htree, h⟩
  · exact faultWithin_of_ofText htree
  rcases error_of_bind h with hroot | ⟨_, -, h⟩
  · have hresolve := elements_resolve _ _ _ ▸ congrArg (Except.map _) hroot
    obtain ⟨x, hx, _, hx'⟩ := exists_of_resolveElements_error hresolve
    obtain ⟨place, fault, hplace, rfl⟩ := Element.error_of_resolve hx'
    -- numbering the groups has left the references where they were
    have hmem := List.mem_filterMap.2 ⟨x, hx, hplace⟩
    rw [(elements_number _ tree {}).elements, filterMap_numberElements fun _ => rfl] at hmem
    obtain ⟨y, hy, hyplace⟩ := List.mem_filterMap.1 hmem
    exact .malformed ((sound_of_ofText htree y hy).place_le hyplace) fault
  · cases h

/-- **A fault of a pattern is in the pattern**, or at its end. -/
theorem faultWithin_of_read (h : Pattern.read o text = .error e) (k : Nat) (fault : Fault)
    (he : e = .malformed k fault) : k ≤ text.length := by
  subst he
  cases refused_of_read h with
  | malformed hk => exact hk

end Diglot.Source

namespace Diglot

/-- A computation that reports no fault of a text. -/
def Faultless {α : Type} (x : Except Error α) : Prop :=
  ∀ k fault, x ≠ .error (.malformed k fault)

theorem Fails.faultless {α : Type} {P : Error → Prop} {x : Except Error α} (hx : Fails P x)
    (hP : ∀ k fault, ¬ P (.malformed k fault)) : Faultless x :=
  fun k fault h => hP k fault (hx _ h)

/-- Options are refused by themselves or for how they go together. -/
theorem fails_normalize (o : Options) :
    Fails (fun e => e.kind = .conflict ∨ e.kind = .option) o.normalize := by
  have hadd : ∀ (flags : Flags) c,
      Fails (fun e => e.kind = .conflict ∨ e.kind = .option) (flags.add c) := by
    intro flags c
    unfold Flags.add
    split
    case h_7 => exact .error (.inr rfl)
    all_goals exact .ok _
  unfold Options.normalize
  split
  · exact .error (.inl rfl)
  dsimp only
  split
  · exact .error (.inr rfl)
  · exact .bind (.foldlM hadd _ _) fun _ => .ok _

theorem faultless_normalize (o : Options) : Faultless o.normalize :=
  (fails_normalize o).faultless (by simp [Error.kind])

theorem faultless_lower (o : Core.LowerOptions) (p : Source.Pattern) :
    Faultless (Core.Pattern.lower o p) :=
  (Core.ends_lower o p).fails.faultless (by simp [Core.IsRefusal])

theorem Emitted.faultless_writePattern (o : WriteOptions) (root : Core.Node) :
    Faultless (writePattern o root) :=
  (fails_writePattern o root).faultless fun k fault h => by cases h

end Diglot

namespace Diglot

open Emitted Reduction

/-! ## Converting -/

/-- An error that the reductions meet in a text that has been written. A property name of the source
holds a bracket then, or the numbers in the text may be too large for 64 bits. -/
def IsMisreading (o : Options) (pattern : String) (e : Error) : Prop :=
  ∃ s source core written, o.normalize = .ok s ∧
    Source.Pattern.read s.reading pattern.toList = .ok source ∧
    Core.Pattern.lower s.lowering source = .ok core ∧
    writePattern s.writing core.root = .ok written ∧
    toHost ⟨written.text, written.layout⟩ = .error e ∧
    (source.root.keeps .unbracketed → 2 ^ 64 ≤ s.rules.recursionLimit * written.text.length)

/-- **A fault that a conversion reports is in the source pattern**, or at its end, unless the
reductions misread what has been written. -/
theorem fault_within_source {o : Options} {pattern : String} {k : Nat} {fault : Fault}
    (h : Conversion.ofSource o pattern = .error (.malformed k fault)) :
    k ≤ pattern.toList.length ∨ IsMisreading o pattern (.malformed k fault) := by
  rcases error_of_bind h with h | ⟨_, -, h⟩
  · rcases error_of_bind h with h | ⟨s, hs, h⟩
    · exact absurd h (faultless_normalize o k fault)
    rcases error_of_bind h with hread | ⟨source, hread, h⟩
    · exact .inl (Source.faultWithin_of_read hread k fault rfl)
    rcases error_of_bind h with h | ⟨core, hlower, h⟩
    · exact absurd h (faultless_lower _ _ k fault)
    rcases error_of_bind h with h | ⟨written, hwrite, h⟩
    · exact absurd h (faultless_writePattern _ _ k fault)
    rcases error_of_bind h with h | ⟨_, -, h⟩
    · rcases error_of_bind h with hhost | ⟨_, -, h⟩
      · obtain ⟨hrules, hleast, hgreatest⟩ := rules_of_normalize hs
        rw [← hrules] at hleast hgreatest
        refine .inr ⟨s, source, core, written, hs, hread, hlower, hwrite, hhost, fun hnames => ?_⟩
        by_contra hsize
        obtain ⟨d, _, hd, -⟩ := toHost_written hread hnames hlower hwrite hleast hgreatest
          (Nat.lt_of_not_le hsize)
        cases hhost.symm.trans hd
      · split at h <;> cases h
    · cases h
  · cases h

/-- A reference to a name that no group has. -/
theorem fault_within_source_undefined :
    Conversion.ofSource {} "(?<a>b)\\k<c>" = .error (.malformed 7 (.undefinedName "c")) ∧
      7 ≤ "(?<a>b)\\k<c>".toList.length := by
  have hrun : Conversion.ofSource {} "(?<a>b)\\k<c>"
      = .error (.malformed 7 (.undefinedName "c")) := by
    decide +kernel
  -- the pattern cannot be read, so that nothing is written
  have hunread : (Options.normalize {}).toOption.all fun s =>
      (Source.Pattern.read s.reading "(?<a>b)\\k<c>".toList).toOption.isNone := by
    decide +kernel
  refine ⟨hrun, ?_⟩
  rcases fault_within_source hrun with hle | ⟨s, source, _, _, hs, hread, -⟩
  · exact hle
  · rw [hs] at hunread
    change (Source.Pattern.read s.reading _).toOption.isNone = true at hunread
    rw [hread] at hunread
    cases hunread

/-- A property whose name is a bracket opens a class in the written text that does not end: the fault
is three places after the end of the source. -/
theorem bracket_in_property_name :
    Conversion.ofSource {} "[a\\p\x7b[\x7d]" = .error (.malformed 11 .unterminatedClass) ∧
      "[a\\p\x7b[\x7d]".toList.length = 8 := by
  decide +kernel

end Diglot
