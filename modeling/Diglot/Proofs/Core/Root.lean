import Diglot.Core.Lowering
import Diglot.Proofs.Outcome

/-!
# Lowering from the root

A pattern is lowered from the root of its tree on, after a leading anchor has been taken off. The
definitions that calls lead to are those of the whole tree, with the anchor. Whether the wrapper is
to be avoided only matters for the anchor.
-/

namespace Diglot

theorem bind_eq_ok_iff {α β : Type} {x : Except Error α} {f : α → Except Error β} {b : β} :
    x >>= f = .ok b ↔ ∃ a, x = .ok a ∧ f a = .ok b := by
  refine ⟨exists_of_bind_eq_ok, ?_⟩
  rintro ⟨a, rfl, hf⟩
  exact hf

namespace Core

/-- The scope at the root of a pattern. -/
def Scope.root (p : Source.Pattern) : Scope :=
  { ignoreCase := p.flags.ignoreCase, dotAll := p.flags.dotAll, topLevel := true }

/-- What does not change while a pattern is lowered. -/
def Lowering.of (o : LowerOptions) (p : Source.Pattern) : Lowering :=
  ⟨o, p.flags, Core.definitions (.root p) [] p.root⟩

/-- The tree of a pattern is lowered without its leading anchor. -/
def lowerRoot (e : Lowering) (p : Source.Pattern) : Lower Node :=
  lowerNode e (lowerCall e e.definitions.length) {} (.root p)
    (p.root.splitStrategy e.options.singleline).2

/-- A pattern is lowered unless it has a leading anchor and the wrapper for it is avoided. -/
theorem lower_eq_ok_iff {o : LowerOptions} {p : Source.Pattern} {q : Pattern} :
    Pattern.lower o p = .ok q ↔
      (o.avoidEmulation = true → q.strategy = none) ∧
        (p.root.splitStrategy o.singleline).1 = q.strategy ∧
        (lowerRoot (.of o p) p).run' false = .ok q.root := by
  obtain ⟨root, strategy⟩ := q
  unfold Pattern.lower
  dsimp only
  by_cases h : ((p.root.splitStrategy o.singleline).1.isSome && o.avoidEmulation) = true
  · rw [if_pos h]
    rw [Bool.and_eq_true] at h
    constructor
    · intro hq
      cases hq
    · rintro ⟨havoid, hstrategy, -⟩
      rw [hstrategy, havoid h.2] at h
      cases h.1
  · rw [if_neg h, bind_eq_ok_iff]
    constructor
    · rintro ⟨_, hroot, hq⟩
      cases hq
      refine ⟨fun havoid => ?_, rfl, hroot⟩
      simpa [havoid] using h
    · rintro ⟨-, rfl, hroot⟩
      exact ⟨root, hroot, rfl⟩

/-! ## Avoiding the wrapper -/

/-- The lowering of a pattern for which the wrapper is to be avoided or not. -/
def Lowering.avoiding (e : Lowering) (avoidEmulation : Bool) : Lowering :=
  { e with options := { e.options with avoidEmulation } }

section

variable (e : Lowering) (avoidEmulation : Bool)

/-- No construct asks whether the wrapper is to be avoided. -/
theorem lowerNode_avoiding (call : Trail → Scope → Nat → Lower Node) :
    lowerNode (e.avoiding avoidEmulation) call = lowerNode e call := by
  delta lowerNode
  rfl

theorem lowerCall_avoiding (depth : Nat) :
    lowerCall (e.avoiding avoidEmulation) depth = lowerCall e depth := by
  induction depth with
  | zero => rfl
  | succ depth ih =>
    funext t s target
    have hdefinition : (e.avoiding avoidEmulation).definition? target = e.definition? target := rfl
    unfold lowerCall
    rw [hdefinition]
    cases e.definition? target with
    | none => rfl
    | some d =>
      dsimp only
      rw [ih, lowerNode_avoiding]
      rfl

theorem lowerRoot_avoiding (p : Source.Pattern) :
    lowerRoot (e.avoiding avoidEmulation) p = lowerRoot e p := by
  unfold lowerRoot
  rw [lowerCall_avoiding, lowerNode_avoiding]
  rfl

end

end Core

end Diglot
